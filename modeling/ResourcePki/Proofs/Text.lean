import ResourcePki.KeyIdentifier
import ResourcePki.Text.Base64
import ResourcePki.Text.Hex

/-!
Octets written as text are read back.

Digits and letters are few, so what holds of all of them is checked one by one. For both kinds of
text the recursion of reading then follows that of writing: two digits an octet, or four letters
for three octets, with the padding at the end told apart from letters.
-/

namespace ResourcePki

/-- Text of characters of one octet survives as octets. -/
theorem Octets.toText_ofAscii {cs : List Char} (h : ∀ c ∈ cs, c.toNat < 256) :
    toText (ofAscii (String.ofList cs)) = String.ofList cs := by
  rw [toText, ofAscii, String.toList_ofList, List.map_map]
  refine congrArg String.ofList ((List.map_congr_left fun c hc => ?_).trans (List.map_id cs))
  have hoctet : c.toUInt8.toNat = c.toNat := Nat.mod_eq_of_lt (h c hc)
  rw [Function.comp_apply, hoctet, Char.ofNat_toNat, id_eq]

namespace Hex

theorem digit_spec : ∀ n < 16, value? (digit .upper n) = some n ∧ (digit .upper n).toNat < 256 := by
  decide

theorem decode?_encode : ∀ bs : Octets, decode? (encode .upper bs) = some bs
  | [] => rfl
  | b :: bs => by
    have hb := b.toNat_lt
    have hhigh := (digit_spec (b.toNat / 16) (by omega)).1
    have hlow := (digit_spec (b.toNat % 16) (by omega)).1
    have hjoin : b.toNat / 16 * 16 + b.toNat % 16 = b.toNat := by omega
    rw [encode, List.flatMap_cons, ← encode, List.cons_append, List.cons_append, List.nil_append,
      decode?, hhigh, hlow, decode?_encode bs]
    show some (UInt8.ofNat (b.toNat / 16 * 16 + b.toNat % 16) :: bs) = some (b :: bs)
    rw [hjoin, UInt8.ofNat_toNat]

theorem toNat_lt_of_mem_encode {bs : Octets} {c : Char} (h : c ∈ encode .upper bs) :
    c.toNat < 256 := by
  obtain ⟨b, -, hc⟩ := List.mem_flatMap.mp h
  have hb := b.toNat_lt
  simp only [List.mem_cons, List.not_mem_nil, or_false] at hc
  rcases hc with rfl | rfl
  · exact (digit_spec _ (by omega)).2
  · exact (digit_spec _ (by omega)).2

end Hex

namespace Base64

theorem letter_spec : ∀ n < 64, value? (letter n) = some n ∧ letter n ≠ '=' ∧
    (letter n).toNat < 256 := by
  decide

theorem decode?_letters {a b c d : Nat} (ha : a < 64) (hb : b < 64) (hc : c < 64) (hd : d < 64)
    (rest : List Char) :
    decode? (letter a :: letter b :: letter c :: letter d :: rest) =
      (decode? rest).map fun bs =>
        let n := ((a * 64 + b) * 64 + c) * 64 + d
        UInt8.ofNat (n / 65536) :: UInt8.ofNat (n / 256 % 256) :: UInt8.ofNat (n % 256) :: bs := by
  have hpad := (letter_spec d hd).2.1
  rw [decode?, (letter_spec a ha).1, (letter_spec b hb).1, (letter_spec c hc).1,
    (letter_spec d hd).1]
  · cases decode? rest <;> rfl
  · exact fun _ h => absurd h hpad
  · exact fun h => absurd h hpad

theorem decode?_padded {a b c : Nat} (ha : a < 64) (hb : b < 64) (hc : c < 64) :
    decode? [letter a, letter b, letter c, '='] =
      let n := (a * 64 + b) * 64 + c
      if n % 4 = 0 then some [UInt8.ofNat (n / 1024), UInt8.ofNat (n / 4 % 256)] else none := by
  rw [decode?, (letter_spec a ha).1, (letter_spec b hb).1, (letter_spec c hc).1]
  · rfl
  · exact (letter_spec c hc).2.1

theorem decode?_padded_twice {a b : Nat} (ha : a < 64) (hb : b < 64) :
    decode? [letter a, letter b, '=', '='] =
      let n := a * 64 + b
      if n % 16 = 0 then some [UInt8.ofNat (n / 16)] else none := by
  rw [decode?, (letter_spec a ha).1, (letter_spec b hb).1]
  rfl

/-- Whatever is written is read back. -/
theorem decode?_encode : ∀ bs : Octets, decode? (encode bs) = some bs
  | [] => rfl
  | [a] => by
    have ha := a.toNat_lt
    have hjoin : a.toNat * 16 / 64 * 64 + a.toNat * 16 % 64 = a.toNat * 16 := by omega
    rw [encode, decode?_padded_twice (by omega) (by omega)]
    dsimp only
    rw [hjoin, if_pos (by omega), Nat.mul_div_cancel _ (by decide), UInt8.ofNat_toNat]
  | [a, b] => by
    have ha := a.toNat_lt
    have hb := b.toNat_lt
    have hjoin : ((a.toNat * 256 + b.toNat) * 4 / 4096 * 64
        + (a.toNat * 256 + b.toNat) * 4 / 64 % 64) * 64 + (a.toNat * 256 + b.toNat) * 4 % 64
          = (a.toNat * 256 + b.toNat) * 4 := by omega
    have hfirst : (a.toNat * 256 + b.toNat) * 4 / 1024 = a.toNat := by omega
    have hsecond : (a.toNat * 256 + b.toNat) * 4 / 4 % 256 = b.toNat := by omega
    rw [encode, decode?_padded (by omega) (by omega) (by omega)]
    dsimp only
    rw [hjoin, if_pos (by omega), hfirst, hsecond, UInt8.ofNat_toNat, UInt8.ofNat_toNat]
  | a :: b :: c :: rest => by
    have ha := a.toNat_lt
    have hb := b.toNat_lt
    have hc := c.toNat_lt
    rw [encode]
    generalize hn : (a.toNat * 256 + b.toNat) * 256 + c.toNat = n
    have hjoin : ((n / 262144 * 64 + n / 4096 % 64) * 64 + n / 64 % 64) * 64 + n % 64 = n := by
      omega
    have hfirst : n / 65536 = a.toNat := by omega
    have hsecond : n / 256 % 256 = b.toNat := by omega
    have hthird : n % 256 = c.toNat := by omega
    rw [decode?_letters (by omega) (by omega) (by omega) (by omega), decode?_encode rest, hjoin,
      Option.map_some]
    dsimp only
    rw [hfirst, hsecond, hthird, UInt8.ofNat_toNat, UInt8.ofNat_toNat, UInt8.ofNat_toNat]

theorem toNat_letter_lt (n : Nat) : (letter n).toNat < 256 := by
  by_cases h : n < 64
  · exact (letter_spec n h).2.2
  · have hlast : letter n = '/' := by
      rw [letter, if_neg (by omega), if_neg (by omega), if_neg (by omega), if_neg (by omega)]
    rw [hlast]
    decide

theorem toNat_lt_of_mem_encode : ∀ {bs : Octets} {c : Char}, c ∈ encode bs → c.toNat < 256
  | [], c, h => by simp [encode] at h
  | [a], c, h => by
    simp only [encode, List.mem_cons, List.not_mem_nil, or_false] at h
    rcases h with rfl | rfl | rfl | rfl <;> first | exact toNat_letter_lt _ | decide
  | [a, b], c, h => by
    simp only [encode, List.mem_cons, List.not_mem_nil, or_false] at h
    rcases h with rfl | rfl | rfl | rfl <;> first | exact toNat_letter_lt _ | decide
  | a :: b :: d :: rest, c, h => by
    simp only [encode, List.mem_cons] at h
    rcases h with rfl | rfl | rfl | rfl | h
    · exact toNat_letter_lt _
    · exact toNat_letter_lt _
    · exact toNat_letter_lt _
    · exact toNat_letter_lt _
    · exact toNat_lt_of_mem_encode h

end Base64

/-! ### Names of keys as octets -/

theorem KeyIdentifier.toText_ofAscii_text (k : KeyIdentifier) :
    Octets.toText (Octets.ofAscii k.text) = k.text :=
  Octets.toText_ofAscii fun _ => Hex.toNat_lt_of_mem_encode

/-- The text of an identifier names it. -/
theorem KeyIdentifier.ofText?_text (k : KeyIdentifier) :
    ofText? (Octets.toText (Octets.ofAscii k.text)) = some k := by
  rw [k.toText_ofAscii_text, text, Hex.upper, ofText?, String.toList_ofList, Hex.decode?_encode,
    Option.bind_some, ofOctets?, dif_pos k.length_eq]

end ResourcePki

import ResourcePki.AsNumber
import ResourcePki.Proofs.Decimal
import ResourcePki.Proofs.Resources.As

/-!
The text of AS numbers.

What is read is a decimal number in range, maybe with a plus sign, behind the letters AS in any case
or without them. The letters are looked for in the first two octets of the text, unless a character
goes on behind these. Where they are found they fill the two octets, so the text can be cut behind
them, and by octets the same is read as by characters.
-/

namespace ResourcePki

/-! ### Texts cut by octets -/

/-- The parts of a text before and from an octet on, if no character has octets in both. -/
def cutText? (s : String) (n : Nat) : Option (String × String) :=
  if h : String.Pos.Raw.IsValid s ⟨n⟩ then
    let p := s.pos ⟨n⟩ h
    some ((s.sliceTo p).copy, (s.sliceFrom p).copy)
  else none

theorem cutText?_eq_some {s front back : String} {n : Nat} :
    cutText? s n = some (front, back) ↔ s = front ++ back ∧ front.utf8ByteSize = n := by
  unfold cutText?
  constructor
  · intro h
    split at h
    · rename_i hvalid
      have hsplits := (s.pos ⟨n⟩ hvalid).splits
      obtain ⟨rfl, rfl⟩ := Prod.mk.inj (Option.some.inj h)
      refine ⟨hsplits.eq_append, ?_⟩
      have hoffset := hsplits.offset_eq_rawEndPos
      rw [String.offset_pos] at hoffset
      exact (congrArg String.Pos.Raw.byteIdx hoffset).symm
    · simp at h
  · rintro ⟨hs, rfl⟩
    have hvalid : String.Pos.Raw.IsValid s ⟨front.utf8ByteSize⟩ :=
      String.Pos.Raw.isValid_iff_exists_append.mpr ⟨front, back, hs, rfl⟩
    have hsplits : (s.pos ⟨front.utf8ByteSize⟩ hvalid).Splits front back :=
      ⟨hs, String.offset_pos⟩
    obtain ⟨hfront, hback⟩ := hsplits.eq (s.pos _ hvalid).splits
    rw [dif_pos hvalid]
    exact congrArg some (Prod.ext hfront.symm hback.symm)

namespace AsNumber

/-! ### The letters -/

/-- The letters AS in any case. -/
def letters : List (List Char) :=
  [['A', 'S'], ['A', 's'], ['a', 'S'], ['a', 's']]

/-- The characters behind the letters AS in any case, or all of them if they do not begin so. -/
def numeral (cs : List Char) : List Char :=
  if cs.take 2 ∈ letters then cs.drop 2 else cs

theorem mem_letters_iff {a s : Char} :
    [a, s] ∈ letters ↔ (a = 'A' ∨ a = 'a') ∧ (s = 'S' ∨ s = 's') := by
  simp only [letters, List.mem_cons, List.cons.injEq, and_true, List.not_mem_nil, or_false]
  tauto

theorem dropLetters_eq : ∀ cs : List Char, dropLetters cs = numeral cs
  | [] => rfl
  | [c] => by simp [dropLetters, numeral, letters]
  | a :: s :: rest => by
    have htake : (a :: s :: rest).take 2 = [a, s] := rfl
    rw [dropLetters, numeral, htake, if_congr mem_letters_iff rfl rfl]
    rfl

theorem toLower_eq_iff (c : Char) :
    (c.toLower = 'a' ↔ c = 'A' ∨ c = 'a') ∧ (c.toLower = 's' ↔ c = 'S' ∨ c = 's') := by
  have hall : ∀ n < 128, ((Char.ofNat n).toLower = 'a' ↔ Char.ofNat n = 'A' ∨ Char.ofNat n = 'a') ∧
      ((Char.ofNat n).toLower = 's' ↔ Char.ofNat n = 'S' ∨ Char.ofNat n = 's') := by
    decide +kernel
  by_cases hascii : c.toNat < 128
  · have hchar := hall c.toNat hascii
    rwa [Char.ofNat_toNat] at hchar
  · -- other characters have no case
    have hlower : c.toLower = c := dif_neg fun h => hascii (Nat.lt_of_le_of_lt h.2 (by decide))
    have hne : ∀ d : Char, d.toNat < 128 → c ≠ d := fun d hd heq => hascii (heq ▸ hd)
    rw [hlower]
    simp [hne 'A' (by decide), hne 'a' (by decide), hne 'S' (by decide), hne 's' (by decide)]

theorem toLower_eq_as_iff {s : String} : s.toLower = "as" ↔ s.toList ∈ letters := by
  have hmap : s.toLower.toList = s.toList.map Char.toLower := String.toList_map
  rw [← String.toList_inj, hmap]
  match s.toList with
  | [] => simp [letters]
  | [a] => simp [letters]
  | [a, b] => simp [mem_letters_iff, toLower_eq_iff]
  | a :: b :: c :: rest => simp [letters]

/-! ### Reading by octets -/

/-- Reads the text of a number cut by octets. There is nothing if it has to be cut inside of a
    character. -/
def ofCutText? (s : String) : Option (Except Decimal.Fault AsNumber) := do
  let digits ←
    match (cutText? s 2).map (·.1) with
    | some front => if front.toLower = "as" then (cutText? s 2).map (·.2) else some s
    | none => some s
  return (Decimal.read 0xffffffff digits.toList).map ofNat

theorem cutText?_of_letters {s : String} (h : s.toList.take 2 ∈ letters) :
    cutText? s 2 = some (String.ofList (s.toList.take 2), String.ofList (s.toList.drop 2)) := by
  refine cutText?_eq_some.mpr ⟨?_, ?_⟩
  · rw [← String.ofList_append, List.take_append_drop, String.ofList_toList]
  · have hsize : ∀ cs ∈ letters, (String.ofList cs).utf8ByteSize = 2 := by decide
    exact hsize _ h

/-- By octets the same is read as by characters. -/
theorem ofCutText?_eq (s : String) : ofCutText? s = some (ofText s) := by
  unfold ofCutText? ofText
  rw [dropLetters_eq, numeral]
  by_cases h : s.toList.take 2 ∈ letters
  · have hfront : (String.ofList (s.toList.take 2)).toLower = "as" := by
      rwa [toLower_eq_as_iff, String.toList_ofList]
    rw [if_pos h, cutText?_of_letters h]
    simp [hfront]
  · rw [if_neg h]
    cases hcut : cutText? s 2 with
    | none => rfl
    | some p =>
      obtain ⟨rfl, hsize⟩ := cutText?_eq_some.mp hcut
      have hfront : p.1.toLower ≠ "as" := by
        intro hlower
        rw [toLower_eq_as_iff] at hlower
        have hlength : ∀ cs ∈ letters, cs.length = 2 := by decide
        have htake : (p.1.toList ++ p.2.toList).take 2 = p.1.toList :=
          List.take_left' (hlength _ hlower)
        rw [String.toList_append, htake] at h
        exact h hlower
      simp [hfront]

/-! ### The texts that are read -/

theorem ofText_eq_ok {s : String} {n : AsNumber} :
    ofText s = .ok n ↔ Decimal.IsNumeral (numeral s.toList) n.toNat := by
  have hlt := n.toNat_lt
  rw [ofText, map_eq_ok, dropLetters_eq]
  simp only [Decimal.read_eq_ok]
  constructor
  · rintro ⟨v, ⟨hv, hle⟩, rfl⟩
    rwa [toNat_ofNat (by omega)]
  · intro h
    exact ⟨n.toNat, ⟨h, by omega⟩, n.ofNat_toNat⟩

theorem ofText_text (n : AsNumber) : ofText n.text = .ok n := by
  have htext : n.text.toList = ['A', 'S'] ++ Decimal.digits n.toNat := by
    have hletters : "AS".toList = ['A', 'S'] := rfl
    rw [text, Decimal.text, String.toList_append, hletters, String.toList_ofList]
  rw [ofText_eq_ok, htext]
  exact ⟨_, .inl rfl, Decimal.spells_digits n.toNat⟩

/-- What is read as an AS number is a decimal number in range, maybe with a plus sign, behind the
    letters AS in any case or without them. No character is cut on the way. Every number is read
    from its text. -/
theorem ofText_exact :
    (∀ (s : String) (v : Nat), (∃ n, ofText s = .ok n ∧ n.toNat = v) ↔
      Decimal.IsNumeral (numeral s.toList) v ∧ v ≤ 4294967295) ∧
    (∀ s : String, ofCutText? s = some (ofText s)) ∧
    ∀ n : AsNumber, ofText n.text = .ok n := by
  refine ⟨fun s v => ?_, ofCutText?_eq, ofText_text⟩
  simp only [ofText_eq_ok]
  constructor
  · rintro ⟨n, h, rfl⟩
    have hlt := n.toNat_lt
    exact ⟨h, by omega⟩
  · rintro ⟨h, hle⟩
    have hv : (ofNat v).toNat = v := toNat_ofNat (by omega)
    exact ⟨ofNat v, hv.symm ▸ h, hv⟩

/-- Letters of both cases, a plus sign and zeros in front. -/
example : (ofText "aS+0064496").toOption.map toNat = some 64496 := by decide

/-- A character goes on behind the second octet. -/
example : cutText? "aÄ1" 2 = none ∧ ofText "aÄ1" = .error .invalidDigit := by decide

end AsNumber

end ResourcePki

import ResourcePki.Der.Writer
import ResourcePki.Proofs.Octets

/-!
What is known of the octets that a header has been read from.

A header is read without looking at what follows it, so the same octets give the same header in
front of anything else. If it is read as that of a value with a length and a tag of one octet, there
is only one way to spell it, the one in which values are written: the tag with the bit for values
made of others, then the length in the fewest octets.
-/

namespace ResourcePki

namespace Der

/-! ### Nothing that follows is looked at -/

theorem afterLongTag_frame : ∀ {n : Nat} {bs rest : Octets}, afterLongTag n bs = some rest →
    ∃ hd, bs = hd ++ rest ∧ ∀ after, afterLongTag n (hd ++ after) = some after
  | 0, _, _, h => by simp [afterLongTag] at h
  | n + 1, [], _, h => by simp [afterLongTag] at h
  | n + 1, b :: bs, rest, h => by
    rw [afterLongTag] at h
    split at h
    · rename_i hb
      rw [Option.some.injEq] at h
      exact ⟨[b], by rw [h]; rfl, fun after => by simp [afterLongTag, hb]⟩
    · rename_i hb
      obtain ⟨hd, rfl, hframe⟩ := afterLongTag_frame h
      exact ⟨b :: hd, rfl, fun after => by simp [afterLongTag, hb, hframe]⟩

/-- The two ways in which a tag is read: with further octets or without. -/
theorem readTag_cases {bs rest : Octets} {tag : Tag} {c : Bool}
    (h : readTag bs = some (tag, c, rest)) :
    ∃ b bs', bs = b :: bs' ∧ tag = b &&& 0xdf ∧ c = (b &&& 0x20 != 0) ∧
      (b &&& 0x1f = 0x1f ∧ afterLongTag 3 bs' = some rest ∨ b &&& 0x1f ≠ 0x1f ∧ bs' = rest) := by
  cases bs with
  | nil => simp [readTag] at h
  | cons b bs =>
    simp only [readTag] at h
    split at h
    · rename_i hlong
      obtain ⟨rest', hrest, hx⟩ := Option.map_eq_some_iff.mp h
      simp only [Prod.mk.injEq] at hx
      obtain ⟨rfl, rfl, rfl⟩ := hx
      exact ⟨b, bs, rfl, rfl, rfl, Or.inl ⟨hlong, hrest⟩⟩
    · rename_i hshort
      simp only [Option.some.injEq, Prod.mk.injEq] at h
      obtain ⟨rfl, rfl, rfl⟩ := h
      exact ⟨b, bs, rfl, rfl, rfl, Or.inr ⟨hshort, rfl⟩⟩

theorem readTag_frame {bs rest : Octets} {tag : Tag} {c : Bool}
    (h : readTag bs = some (tag, c, rest)) :
    ∃ hd, bs = hd ++ rest ∧ hd ≠ [] ∧ ∀ after, readTag (hd ++ after) = some (tag, c, after) := by
  obtain ⟨b, bs, rfl, rfl, rfl, ⟨hlong, hrest⟩ | ⟨hshort, rfl⟩⟩ := readTag_cases h
  · obtain ⟨hd, rfl, hframe⟩ := afterLongTag_frame hrest
    exact ⟨b :: hd, rfl, by simp, fun after => by simp [readTag, hlong, hframe]⟩
  · exact ⟨[b], rfl, by simp, fun after => by simp [readTag, hshort]⟩

/-- A length that stands for itself. -/
def IsLongLength (b : UInt8) (digits : Octets) : Prop :=
  ¬b < 0x80 ∧ b ≠ 0x80 ∧ digits.length = b.toNat - 0x80 ∧ digits.length ≤ 4 ∧
    ¬(Octets.toNat digits < 0x80 ∨ digits.head? = some 0)

/-- The three ways in which a length is read: from one octet, as indefinite, or from digits behind
    their count. -/
theorem readLength_cases {bs rest : Octets} {n : Length} (h : readLength bs = some (n, rest)) :
    (∃ b, b < 0x80 ∧ n = .definite b.toNat ∧ bs = b :: rest) ∨
    (n = .indefinite ∧ bs = 0x80 :: rest) ∨
    ∃ b digits, IsLongLength b digits ∧ n = .definite (Octets.toNat digits) ∧
      bs = b :: (digits ++ rest) := by
  cases bs with
  | nil => simp [readLength] at h
  | cons b bs =>
    simp only [readLength] at h
    split at h
    · rename_i hb
      simp only [Option.some.injEq, Prod.mk.injEq] at h
      exact Or.inl ⟨b, hb, h.1.symm, by rw [h.2]⟩
    · rename_i hb
      split at h
      · rename_i hb'
        simp only [Option.some.injEq, Prod.mk.injEq] at h
        exact Or.inr (Or.inl ⟨h.1.symm, by rw [hb', h.2]⟩)
      · rename_i hb'
        split at h
        · simp at h
        · rename_i hcount
          obtain ⟨⟨digits, rest'⟩, hsplit, hdigits⟩ := Option.bind_eq_some_iff.mp h
          split at hdigits
          · simp at hdigits
          · rename_i hmin
            simp only [Option.some.injEq, Prod.mk.injEq] at hdigits
            obtain ⟨rfl, hlen⟩ := Octets.eq_append_of_split? hsplit
            exact Or.inr (Or.inr ⟨b, digits, ⟨hb, hb', hlen, by omega, hmin⟩, hdigits.1.symm,
              by rw [hdigits.2]⟩)

theorem readLength_long {b : UInt8} {digits : Octets} (h : IsLongLength b digits) (rest : Octets) :
    readLength (b :: (digits ++ rest)) = some (.definite (Octets.toNat digits), rest) := by
  obtain ⟨hb, hb', hlen, hcount, hmin⟩ := h
  have hcount' : ¬digits.length > 4 := by omega
  simp only [readLength, if_neg hb, if_neg hb', ← hlen, if_neg hcount', Octets.split?_append,
    Option.bind_eq_bind, Option.bind_some, if_neg hmin]

theorem readLength_frame {bs rest : Octets} {n : Length} (h : readLength bs = some (n, rest)) :
    ∃ hd, bs = hd ++ rest ∧ hd ≠ [] ∧ ∀ after, readLength (hd ++ after) = some (n, after) := by
  obtain ⟨b, hb, rfl, rfl⟩ | ⟨rfl, rfl⟩ | ⟨b, digits, hlong, rfl, rfl⟩ := readLength_cases h
  · exact ⟨[b], rfl, by simp, fun after => by simp [readLength, hb]⟩
  · exact ⟨[0x80], rfl, by simp, fun after => by simp [readLength]⟩
  · exact ⟨b :: digits, rfl, by simp, fun after => readLength_long hlong after⟩

/-- A length has at most four octets behind the one that counts them. -/
abbrev lengthBound : Nat := 256 ^ 4

theorem lt_of_readLength {bs rest : Octets} {n : Nat}
    (h : readLength bs = some (.definite n, rest)) : n < lengthBound := by
  obtain ⟨b, hb, hn, -⟩ | ⟨hn, -⟩ | ⟨b, digits, ⟨-, -, -, hcount, -⟩, hn, -⟩ := readLength_cases h
  · obtain rfl := Length.definite.inj hn
    exact Nat.lt_trans b.toNat_lt (by decide)
  · simp at hn
  · obtain rfl := Length.definite.inj hn
    exact Nat.lt_of_lt_of_le (Octets.toNat_lt digits) (Nat.pow_le_pow_right (by decide) hcount)

theorem lt_of_readHeader {bs rest : Octets} {tag : Tag} {c : Bool} {n : Nat}
    (h : readHeader bs = some (⟨tag, c, .definite n⟩, rest)) : n < lengthBound := by
  unfold readHeader at h
  obtain ⟨⟨tag', c', bs₁⟩, -, h⟩ := Option.bind_eq_some_iff.mp h
  obtain ⟨⟨n', bs₂⟩, hlength, h⟩ := Option.bind_eq_some_iff.mp h
  simp only [pure, Option.some.injEq, Prod.mk.injEq, Header.mk.injEq] at h
  obtain ⟨⟨-, -, rfl⟩, -⟩ := h
  exact lt_of_readLength hlength

/-- The octets of a header give it in front of anything. -/
theorem readHeader_frame {bs rest : Octets} {hdr : Header} (h : readHeader bs = some (hdr, rest)) :
    ∃ hd, bs = hd ++ rest ∧ 2 ≤ hd.length ∧
      ∀ after, readHeader (hd ++ after) = some (hdr, after) := by
  unfold readHeader at h
  obtain ⟨⟨tag, c, bs₁⟩, htag, h⟩ := Option.bind_eq_some_iff.mp h
  obtain ⟨⟨n, bs₂⟩, hlength, h⟩ := Option.bind_eq_some_iff.mp h
  simp only [pure, Option.some.injEq, Prod.mk.injEq] at h
  obtain ⟨rfl, rfl⟩ := h
  obtain ⟨hd₁, rfl, hne₁, hframe₁⟩ := readTag_frame htag
  obtain ⟨hd₂, rfl, hne₂, hframe₂⟩ := readLength_frame hlength
  have hpos₁ := List.length_pos_iff.mpr hne₁
  have hpos₂ := List.length_pos_iff.mpr hne₂
  refine ⟨hd₁ ++ hd₂, by simp, by simp; omega, fun after => ?_⟩
  simp [readHeader, hframe₁, hframe₂]

/-! ### One spelling -/

/-- An octet of a tag is made of the tag and the bit for values made of others. -/
theorem tag_octet (b : UInt8) :
    b = (b &&& 0xdf) ||| (if b &&& 0x20 != 0 then 0x20 else 0) := by
  have hall : ∀ i : Fin 256, UInt8.ofFin i
      = (UInt8.ofFin i &&& 0xdf) ||| (if UInt8.ofFin i &&& 0x20 != 0 then 0x20 else 0) := by
    decide +kernel
  simpa using hall b.toFin

theorem eq_of_readTag {bs rest : Octets} {tag : Tag} {c : Bool}
    (h : readTag bs = some (tag, c, rest)) (hshort : tag &&& 0x1f ≠ 0x1f) :
    bs = (tag ||| if c then 0x20 else 0) :: rest := by
  obtain ⟨b, bs, rfl, rfl, rfl, ⟨hlong, -⟩ | ⟨-, rfl⟩⟩ := readTag_cases h
  · have hlow : (b &&& 0xdf) &&& 0x1f = b &&& 0x1f := by
      rw [UInt8.and_assoc]
      rfl
    exact absurd (hlow.trans hlong) hshort
  · rw [← tag_octet]

theorem eq_of_readLength {bs rest : Octets} {n : Nat}
    (h : readLength bs = some (.definite n, rest)) : bs = writeLength n ++ rest := by
  obtain ⟨b, hb, hn, rfl⟩ | ⟨hn, -⟩ | ⟨b, digits, ⟨hb, -, hlen, -, hmin⟩, hn, rfl⟩ :=
    readLength_cases h
  · obtain rfl := Length.definite.inj hn
    have hlt : b.toNat < 0x80 := hb
    rw [writeLength, if_pos hlt, UInt8.ofNat_toNat]
    rfl
  · simp at hn
  · -- the digits are those of a number that needs them all
    obtain rfl := Length.definite.inj hn
    rw [not_or] at hmin
    have hge : 0x80 ≤ b.toNat := Nat.not_lt.mp hb
    have hcount : 0x80 + digits.length = b.toNat := by omega
    rw [writeLength, if_neg hmin.1, Octets.shortest_toNat hmin.2]
    show _ = UInt8.ofNat (0x80 + digits.length) :: (digits ++ rest)
    rw [hcount, UInt8.ofNat_toNat]

/-- A header with a tag of one octet and a length is the one that is written. -/
theorem eq_of_readHeader {bs rest : Octets} {tag : Tag} {c : Bool} {n : Nat}
    (h : readHeader bs = some (⟨tag, c, .definite n⟩, rest)) (hshort : tag &&& 0x1f ≠ 0x1f) :
    bs = (tag ||| if c then 0x20 else 0) :: (writeLength n ++ rest) := by
  unfold readHeader at h
  obtain ⟨⟨tag', c', bs₁⟩, htag, h⟩ := Option.bind_eq_some_iff.mp h
  obtain ⟨⟨n', bs₂⟩, hlength, h⟩ := Option.bind_eq_some_iff.mp h
  simp only [pure, Option.some.injEq, Prod.mk.injEq, Header.mk.injEq] at h
  obtain ⟨⟨rfl, rfl, rfl⟩, rfl⟩ := h
  rw [eq_of_readTag htag hshort, eq_of_readLength hlength]

end Der

end ResourcePki

import ResourcePki.Proofs.Der.Skip
import ResourcePki.Proofs.Der.Written

/-!
The grammar of well-formed values.

What a value has to be like to be stepped over can be said without stepping over it: an identifier,
a length, and a content, which is anything in a value of octets and a list of well-formed values in
a value made of others. Such a value may end at two zero octets instead of announcing its length.
The functions that step over values do so for exactly those of the grammar, so a string falls into
well-formed values in at most one way.
-/

namespace ResourcePki.Der

/-- The octets of an identifier, and whether it is that of a value made of others. The number of a
    tag has up to three octets of its own if it is large. A zero octet is no identifier, since it
    marks the end of an indefinite length. -/
inductive IsIdentifier : Octets → Bool → Prop
  | short {b : UInt8} : b ≠ 0 → b &&& 0x1f ≠ 0x1f → IsIdentifier [b] (b &&& 0x20 != 0)
  | long {b last : UInt8} {more : Octets} : b &&& 0x1f = 0x1f → (∀ x ∈ more, 0x80 ≤ x) →
      more.length ≤ 2 → last < 0x80 → IsIdentifier (b :: (more ++ [last])) (b &&& 0x20 != 0)

/-- The octets are one well-formed value. -/
inductive IsWellFormed : Octets → Prop
  | primitive {identifier content : Octets} : IsIdentifier identifier false →
      content.length < lengthBound →
      IsWellFormed (identifier ++ (writeLength content.length ++ content))
  | constructed {identifier : Octets} {values : List Octets} : IsIdentifier identifier true →
      values.flatten.length < lengthBound → (∀ v ∈ values, IsWellFormed v) →
      IsWellFormed (identifier ++ (writeLength values.flatten.length ++ values.flatten))
  | indefinite {identifier : Octets} {values : List Octets} : IsIdentifier identifier true →
      (∀ v ∈ values, IsWellFormed v) →
      IsWellFormed (identifier ++ 0x80 :: (values.flatten ++ [0, 0]))

/-! ### Identifiers -/

theorem afterLongTag_append {last : UInt8} (hlast : last < 0x80) (after : Octets) :
    ∀ {n : Nat} {more : Octets}, (∀ x ∈ more, 0x80 ≤ x) → more.length < n →
      afterLongTag n (more ++ last :: after) = some after
  | 0, _, _, hn => absurd hn (Nat.not_lt_zero _)
  | n + 1, [], _, _ => by simp [afterLongTag, hlast]
  | n + 1, x :: more, hmore, hn => by
    have hx : ¬x < 0x80 := UInt8.not_lt.mpr (hmore x List.mem_cons_self)
    rw [List.cons_append, afterLongTag, if_neg hx]
    exact afterLongTag_append hlast after (fun y hy => hmore y (List.mem_cons_of_mem _ hy))
      (Nat.lt_of_succ_lt_succ hn)

theorem of_afterLongTag : ∀ {n : Nat} {bs after : Octets}, afterLongTag n bs = some after →
    ∃ more last, bs = more ++ last :: after ∧ (∀ x ∈ more, 0x80 ≤ x) ∧ more.length < n ∧ last < 0x80
  | 0, _, _, h => by simp [afterLongTag] at h
  | n + 1, [], _, h => by simp [afterLongTag] at h
  | n + 1, b :: bs, after, h => by
    rw [afterLongTag] at h
    split at h
    · rename_i hb
      obtain rfl := Option.some.inj h
      exact ⟨[], b, rfl, by simp, Nat.succ_pos n, hb⟩
    · rename_i hb
      obtain ⟨more, last, rfl, hmore, hn, hlast⟩ := of_afterLongTag h
      refine ⟨b :: more, last, rfl, ?_, Nat.succ_lt_succ hn, hlast⟩
      exact List.forall_mem_cons.mpr ⟨UInt8.not_lt.mp hb, hmore⟩

/-- An octet without the bit for values made of others is its own tag. -/
theorem eq_zero_of_tag {b : UInt8} (htag : b &&& 0xdf = 0) (hc : (b &&& 0x20 != 0) = false) :
    b = 0 := by
  rw [tag_octet b, htag, hc]
  rfl

namespace IsIdentifier

variable {identifier : Octets} {c : Bool}

theorem length_pos (h : IsIdentifier identifier c) : 1 ≤ identifier.length := by
  cases h with
  | short => exact Nat.le_refl 1
  | long => exact Nat.le_add_left 1 _

theorem head?_ne_zero (h : IsIdentifier identifier c) : identifier.head? ≠ some 0 := by
  cases h with
  | short hne _ => exact fun h0 => hne (Option.some.inj h0)
  | long hlong =>
    intro h0
    obtain rfl := Option.some.inj h0
    exact absurd hlong (by decide)

/-- An identifier is read as a tag, which is no end mark if the value is not made of others. -/
theorem readTag_eq (h : IsIdentifier identifier c) :
    ∃ tag, (c = false → tag ≠ Tag.endOfContents) ∧
      ∀ after, readTag (identifier ++ after) = some (tag, c, after) := by
  cases h with
  | @short b hne hshort =>
    refine ⟨b &&& 0xdf, fun hc htag => hne (eq_zero_of_tag htag hc), fun after => ?_⟩
    rw [List.singleton_append, readTag, if_neg hshort]
  | @long b last more hlong hmore hlength hlast =>
    refine ⟨b &&& 0xdf, fun hc htag => ?_, fun after => ?_⟩
    · obtain rfl := eq_zero_of_tag htag hc
      exact absurd hlong (by decide)
    · rw [List.cons_append, readTag, if_pos hlong, List.append_assoc, List.singleton_append,
        afterLongTag_append hlast after hmore (Nat.lt_succ_of_le hlength)]
      rfl

theorem of_readTag {bs rest : Octets} {tag : Tag} (h : readTag bs = some (tag, c, rest))
    (hend : c = false → tag ≠ Tag.endOfContents) :
    ∃ identifier, IsIdentifier identifier c ∧ bs = identifier ++ rest := by
  obtain ⟨b, bs, rfl, rfl, rfl, ⟨hlong, hafter⟩ | ⟨hshort, rfl⟩⟩ := readTag_cases h
  · obtain ⟨more, last, rfl, hmore, hn, hlast⟩ := of_afterLongTag hafter
    exact ⟨b :: (more ++ [last]), long hlong hmore (Nat.le_of_lt_succ hn) hlast, by simp⟩
  · refine ⟨[b], short ?_ hshort, rfl⟩
    rintro rfl
    exact hend rfl rfl

end IsIdentifier

/-! ### Headers -/

theorem readHeader_identifier {identifier : Octets} {c : Bool} (h : IsIdentifier identifier c) :
    ∃ tag, (c = false → tag ≠ Tag.endOfContents) ∧
      (∀ n after, n < lengthBound → readHeader (identifier ++ (writeLength n ++ after))
        = some (⟨tag, c, .definite n⟩, after)) ∧
      ∀ after, readHeader (identifier ++ 0x80 :: after) = some (⟨tag, c, .indefinite⟩, after) := by
  obtain ⟨tag, hend, htag⟩ := h.readTag_eq
  refine ⟨tag, hend, fun n after hn => ?_, fun after => ?_⟩
  · simp only [readHeader, htag, Option.bind_eq_bind, Option.bind_some, readLength_writeLength hn]
    rfl
  · simp only [readHeader, htag, Option.bind_eq_bind, Option.bind_some]
    rfl

/-- The two ways in which a header is spelled: with a length or without. -/
theorem of_readHeader {bs rest : Octets} {hdr : Header} (h : readHeader bs = some (hdr, rest))
    (hend : hdr.constructed = false → hdr.tag ≠ Tag.endOfContents) :
    ∃ identifier, IsIdentifier identifier hdr.constructed ∧
      ((∃ n, hdr.length = .definite n ∧ n < lengthBound ∧
        bs = identifier ++ (writeLength n ++ rest)) ∨
      (hdr.length = .indefinite ∧ bs = identifier ++ 0x80 :: rest)) := by
  have hbound := h
  unfold readHeader at h
  obtain ⟨⟨tag, c, bs₁⟩, htag, h⟩ := Option.bind_eq_some_iff.mp h
  obtain ⟨⟨length, bs₂⟩, hlength, h⟩ := Option.bind_eq_some_iff.mp h
  simp only [pure, Option.some.injEq, Prod.mk.injEq] at h
  obtain ⟨rfl, rfl⟩ := h
  obtain ⟨identifier, hid, rfl⟩ := IsIdentifier.of_readTag htag hend
  refine ⟨identifier, hid, ?_⟩
  cases length with
  | definite n =>
    exact Or.inl ⟨n, rfl, lt_of_readLength hlength, by rw [eq_of_readLength hlength]⟩
  | indefinite =>
    obtain ⟨b, -, hn, -⟩ | ⟨-, rfl⟩ | ⟨b, digits, -, hn, -⟩ := readLength_cases hlength
    · simp at hn
    · exact Or.inr ⟨rfl, rfl⟩
    · simp at hn

/-! ### Values of the grammar are stepped over -/

/-- A value is stepped over wherever it stands, and it is not taken for an end mark. -/
structure IsSteppedOver (v : Octets) : Prop where
  two_le : 2 ≤ v.length
  head?_ne_zero : v.head? ≠ some 0
  skipValue_eq : ∀ fuel after, v.length ≤ fuel → skipValue fuel (v ++ after) = some after

namespace IsSteppedOver

theorem skipValues_flatten : ∀ {values : List Octets} {fuel : Nat},
    (∀ v ∈ values, IsSteppedOver v) → values.flatten.length < fuel →
      skipValues fuel values.flatten = some ()
  | _, 0, _, hfuel => absurd hfuel (Nat.not_lt_zero _)
  | [], fuel + 1, _, _ => by simp [skipValues]
  | v :: values, fuel + 1, h, hfuel => by
    have hv := h v List.mem_cons_self
    have htwo := hv.two_le
    rw [List.flatten_cons, List.length_append] at hfuel
    have hne : v ++ values.flatten ≠ [] := by
      intro hnil
      rw [(List.append_eq_nil_iff.mp hnil).1] at htwo
      simp at htwo
    rw [List.flatten_cons, skipValues, if_neg hne, hv.skipValue_eq fuel _ (by omega)]
    exact skipValues_flatten (fun w hw => h w (List.mem_cons_of_mem _ hw)) (by omega)

theorem skipToEnd_flatten (after : Octets) : ∀ {values : List Octets} {fuel : Nat},
    (∀ v ∈ values, IsSteppedOver v) → values.flatten.length < fuel →
      skipToEnd fuel (values.flatten ++ 0 :: 0 :: after) = some after
  | _, 0, _, hfuel => absurd hfuel (Nat.not_lt_zero _)
  | [], fuel + 1, _, _ => by simp [skipToEnd]
  | v :: values, fuel + 1, h, hfuel => by
    have hv := h v List.mem_cons_self
    have htwo := hv.two_le
    rw [List.flatten_cons, List.length_append] at hfuel
    have hend : ¬(v ++ (values.flatten ++ 0 :: 0 :: after)).take 2 = [0, 0] := by
      intro htake
      rw [List.take_append_of_le_length htwo] at htake
      refine hv.head?_ne_zero ?_
      have hhead : (v.take 2).head? = v.head? := by rw [List.head?_take, if_neg (by decide)]
      rw [← hhead, htake]
      rfl
    rw [List.flatten_cons, List.append_assoc, skipToEnd, if_neg hend,
      hv.skipValue_eq fuel _ (by omega)]
    exact skipToEnd_flatten after (fun w hw => h w (List.mem_cons_of_mem _ hw)) (by omega)

end IsSteppedOver

theorem IsWellFormed.isSteppedOver {v : Octets} (h : IsWellFormed v) : IsSteppedOver v := by
  -- the fuel is at least one, since no value is empty
  have hsucc : ∀ {identifier rest : Octets} {c : Bool} {fuel : Nat}, IsIdentifier identifier c →
      (identifier ++ rest).length ≤ fuel → ∃ k, fuel = k + 1 ∧ rest.length ≤ k := by
    intro identifier rest c fuel hid hfuel
    have hpos := hid.length_pos
    rw [List.length_append] at hfuel
    exact ⟨fuel - 1, by omega, by omega⟩
  have hhead : ∀ {identifier rest : Octets} {c : Bool}, IsIdentifier identifier c →
      (identifier ++ rest).head? ≠ some 0 := by
    intro identifier rest c hid
    obtain ⟨b, bs, rfl⟩ := List.exists_cons_of_length_pos hid.length_pos
    exact hid.head?_ne_zero
  induction h with
  | @primitive identifier content hid hn =>
    obtain ⟨tag, hend, hheader, -⟩ := readHeader_identifier hid
    have hlength := length_writeLength_pos content.length
    have hpos := hid.length_pos
    refine ⟨by simp only [List.length_append]; omega, hhead hid, fun fuel after hfuel => ?_⟩
    obtain ⟨k, rfl, -⟩ := hsucc hid hfuel
    rw [List.append_assoc, List.append_assoc, skipValue, hheader _ _ hn]
    simp [hend rfl, Octets.split?_append]
  | @constructed identifier values hid hn _ ih =>
    obtain ⟨tag, -, hheader, -⟩ := readHeader_identifier hid
    have hlength := length_writeLength_pos values.flatten.length
    have hpos := hid.length_pos
    refine ⟨by simp only [List.length_append]; omega, hhead hid, fun fuel after hfuel => ?_⟩
    obtain ⟨k, rfl, hk⟩ := hsucc hid hfuel
    rw [List.length_append] at hk
    have hinside : skipValues k values.flatten = some () :=
      IsSteppedOver.skipValues_flatten ih (by omega)
    rw [List.append_assoc, List.append_assoc, skipValue, hheader _ _ hn]
    simp only [Octets.split?_append, hinside, Option.map_some]
  | @indefinite identifier values hid _ ih =>
    obtain ⟨tag, -, -, hheader⟩ := readHeader_identifier hid
    have hpos := hid.length_pos
    refine ⟨by simp only [List.length_append, List.length_cons]; omega, hhead hid,
      fun fuel after hfuel => ?_⟩
    obtain ⟨k, rfl, hk⟩ := hsucc hid hfuel
    simp only [List.length_cons, List.length_append] at hk
    have hinside : skipToEnd k (values.flatten ++ 0 :: 0 :: after) = some after :=
      IsSteppedOver.skipToEnd_flatten after ih (by omega)
    rw [List.append_assoc, List.cons_append, List.append_assoc, skipValue, hheader]
    exact hinside

/-! ### What is stepped over is in the grammar -/

mutual

theorem exists_isWellFormed_of_skipValue : ∀ {fuel : Nat} {bs rest : Octets},
    skipValue fuel bs = some rest → ∃ v, bs = v ++ rest ∧ IsWellFormed v
  | 0, _, _, h => by simp [skipValue] at h
  | fuel + 1, bs, rest, h => by
    rw [skipValue] at h
    split at h
    · simp at h
    · rename_i tag n bs₁ hheader
      split at h
      · simp at h
      · rename_i htag
        obtain ⟨⟨content, after⟩, hsplit, rfl⟩ := Option.map_eq_some_iff.mp h
        obtain ⟨rfl, rfl⟩ := Octets.eq_append_of_split? hsplit
        obtain ⟨identifier, hid, ⟨n, hn, hbound, rfl⟩ | ⟨hn, -⟩⟩ :=
          of_readHeader hheader fun _ => htag
        · obtain rfl := Length.definite.inj hn
          exact ⟨_, by simp, .primitive hid hbound⟩
        · simp at hn
    · simp at h
    · rename_i tag n bs₁ hheader
      split at h
      · simp at h
      · rename_i content after hsplit
        obtain ⟨u, hu, rfl⟩ := Option.map_eq_some_iff.mp h
        obtain ⟨rfl, rfl⟩ := Octets.eq_append_of_split? hsplit
        obtain ⟨values, rfl, hvalues⟩ := exists_isWellFormed_of_skipValues hu
        obtain ⟨identifier, hid, ⟨n, hn, hbound, rfl⟩ | ⟨hn, -⟩⟩ := of_readHeader hheader (by simp)
        · obtain rfl := Length.definite.inj hn
          exact ⟨_, by simp, .constructed hid hbound hvalues⟩
        · simp at hn
    · rename_i tag bs₁ hheader
      obtain ⟨values, rfl, hvalues⟩ := exists_isWellFormed_of_skipToEnd h
      obtain ⟨identifier, hid, ⟨n, hn, -, -⟩ | ⟨-, rfl⟩⟩ := of_readHeader hheader (by simp)
      · simp at hn
      · exact ⟨_, by simp, .indefinite hid hvalues⟩

theorem exists_isWellFormed_of_skipValues : ∀ {fuel : Nat} {bs : Octets} {u : Unit},
    skipValues fuel bs = some u →
      ∃ values : List Octets, bs = values.flatten ∧ ∀ v ∈ values, IsWellFormed v
  | 0, _, _, h => by simp [skipValues] at h
  | fuel + 1, bs, u, h => by
    rw [skipValues] at h
    split at h
    · rename_i hnil
      exact ⟨[], hnil, by simp⟩
    · split at h
      · simp at h
      · rename_i rest hfirst
        obtain ⟨v, rfl, hv⟩ := exists_isWellFormed_of_skipValue hfirst
        obtain ⟨values, rfl, hvalues⟩ := exists_isWellFormed_of_skipValues h
        exact ⟨v :: values, rfl, List.forall_mem_cons.mpr ⟨hv, hvalues⟩⟩

theorem exists_isWellFormed_of_skipToEnd : ∀ {fuel : Nat} {bs rest : Octets},
    skipToEnd fuel bs = some rest →
      ∃ values : List Octets, bs = values.flatten ++ 0 :: 0 :: rest ∧ ∀ v ∈ values, IsWellFormed v
  | 0, _, _, h => by simp [skipToEnd] at h
  | fuel + 1, bs, rest, h => by
    rw [skipToEnd] at h
    split at h
    · rename_i hend
      obtain rfl := Option.some.inj h
      refine ⟨[], ?_, by simp⟩
      have hbs := List.take_append_drop 2 bs
      rw [hend] at hbs
      exact hbs.symm
    · split at h
      · simp at h
      · rename_i rest' hfirst
        obtain ⟨v, rfl, hv⟩ := exists_isWellFormed_of_skipValue hfirst
        obtain ⟨values, rfl, hvalues⟩ := exists_isWellFormed_of_skipToEnd h
        exact ⟨v :: values, by simp, List.forall_mem_cons.mpr ⟨hv, hvalues⟩⟩

end

/-! ### The two together -/

theorem IsWellFormed.firstValue? {v : Octets} (h : IsWellFormed v) (rest : Octets) :
    firstValue? (v ++ rest) = some (v, rest) := by
  have hskip := h.isSteppedOver.skipValue_eq ((v ++ rest).length + 2) rest
    (by rw [List.length_append]; omega)
  rw [Der.firstValue?, hskip]
  simp

/-- A value is well-formed iff it is the first value of its octets and all of them. -/
theorem isWellFormed_iff {v : Octets} : IsWellFormed v ↔ firstValue? v = some (v, []) := by
  constructor
  · intro h
    simpa using h.firstValue? []
  · intro h
    obtain ⟨rest, hskip, hrest⟩ := Option.map_eq_some_iff.mp h
    obtain rfl : rest = [] := (Prod.mk.inj hrest).2
    obtain ⟨w, hw, hwell⟩ := exists_isWellFormed_of_skipValue hskip
    rw [List.append_nil] at hw
    exact hw ▸ hwell

instance (v : Octets) : Decidable (IsWellFormed v) :=
  decidable_of_iff _ isWellFormed_iff.symm

/-- A string consists of well-formed values iff it falls into values of the grammar. -/
theorem areValues_iff {bs : Octets} :
    areValues bs = true ↔
      ∃ values : List Octets, bs = values.flatten ∧ ∀ v ∈ values, IsWellFormed v := by
  rw [areValues, Option.isSome_iff_exists]
  constructor
  · rintro ⟨u, hu⟩
    exact exists_isWellFormed_of_skipValues hu
  · rintro ⟨values, rfl, hvalues⟩
    exact ⟨(), IsSteppedOver.skipValues_flatten (fun v hv => (hvalues v hv).isSteppedOver)
      (by omega)⟩

/-- No well-formed value begins with another one. -/
theorem IsWellFormed.eq_of_prefix {v w : Octets} (hv : IsWellFormed v) (hw : IsWellFormed w)
    (h : v <+: w) : v = w := by
  obtain ⟨rest, rfl⟩ := h
  have hfirst := isWellFormed_iff.mp hw
  rw [hv.firstValue?, Option.some.injEq, Prod.mk.injEq] at hfirst
  exact hfirst.1

/-- A string falls into well-formed values in at most one way. -/
theorem flatten_injective : ∀ {values values' : List Octets}, (∀ v ∈ values, IsWellFormed v) →
    (∀ v ∈ values', IsWellFormed v) → values.flatten = values'.flatten → values = values'
  | [], [], _, _, _ => rfl
  | [], w :: values', _, h', h => by
    have htwo := (h' w List.mem_cons_self).isSteppedOver.two_le
    have hlength := congrArg List.length h
    simp only [List.flatten_nil, List.length_nil, List.flatten_cons, List.length_append] at hlength
    omega
  | v :: values, [], h, _, heq => by
    have htwo := (h v List.mem_cons_self).isSteppedOver.two_le
    have hlength := congrArg List.length heq
    simp only [List.flatten_nil, List.length_nil, List.flatten_cons, List.length_append] at hlength
    omega
  | v :: values, w :: values', h, h', heq => by
    rw [List.forall_mem_cons] at h h'
    have hfirst := h.1.firstValue? values.flatten
    rw [List.flatten_cons, List.flatten_cons] at heq
    rw [heq, h'.1.firstValue?, Option.some.injEq, Prod.mk.injEq] at hfirst
    obtain ⟨rfl, hrest⟩ := hfirst
    rw [flatten_injective h.2 h'.2 hrest.symm]

/-! ### Written values -/

/-- A written value is well-formed if what it is made of is. -/
theorem isWellFormed_value {b : UInt8} {tag : Tag} {content : Octets} (h : Opens b tag false)
    (hlen : content.length < lengthBound) : IsWellFormed (value b content) := by
  have hid : IsIdentifier [b] false := by
    rw [← h.constructed_eq]
    refine .short (fun hzero => h.ne_end ?_) h.short
    rw [← h.tag_eq, hzero]
    rfl
  exact .primitive hid hlen

theorem isWellFormed_sequenceValue {values : List Octets} (hvalues : ∀ v ∈ values, IsWellFormed v)
    (hlen : values.flatten.length < lengthBound) : IsWellFormed (sequenceValue values.flatten) :=
  have hid : IsIdentifier [Tag.sequence ||| 0x20] true := .short (by decide) (by decide)
  .constructed hid hlen hvalues

end ResourcePki.Der

import ResourcePki.Proofs.Der.Reads

/-!
What has been written is read again.

A reader takes some octets if it gives the same for them wherever they stand, and stops behind them.
Readers that do so one after the other take the octets one after the other. The header of a written
value is read as it has been announced if the length fits into the four octets that a length can
have, so a value is taken by whoever understands its content. A repetition takes items one after the
other, each of which carries its state on.
-/

namespace ResourcePki

theorem Octets.head?_shortest (n : Nat) : (shortest n).head? ≠ some 0 := by
  intro h
  have hn : n ≠ 0 := by
    rintro rfl
    simp [shortest, width, ofNat] at h
  obtain ⟨bs, hbs⟩ := List.head?_eq_some_iff.mp h
  -- behind a zero there is one octet too few for the number
  have hlen : bs.length = width n - 1 := by
    have hw : (shortest n).length = width n := length_ofNat _ _
    rw [hbs, List.length_cons] at hw
    omega
  have hvalue : n = toNat bs := by
    rw [← toNat_shortest n, hbs, toNat_cons]
    simp
  have hlow := (width_spec hn).1
  have hhigh := toNat_lt bs
  rw [hlen, ← hvalue] at hhigh
  omega

/-- Less than eight bits are to spare, all of them zero. -/
structure BitString.IsTrimmed (bits : BitString) : Prop where
  unused_lt : bits.unused < 8
  nonempty : bits.octets = [] → bits.unused = 0
  clear : ∀ last, bits.octets.getLast? = some last → last.toNat % 2 ^ bits.unused = 0

namespace Der

variable {α β σ : Type}

/-! ### Headers -/

theorem isLongLength_shortest {n : Nat} (hlow : ¬n < 0x80) (hhigh : n < lengthBound) :
    IsLongLength (UInt8.ofNat (0x80 + (Octets.shortest n).length)) (Octets.shortest n) := by
  have hlen : (Octets.shortest n).length = Octets.width n := Octets.length_ofNat _ _
  obtain ⟨hwidth, hn⟩ := Octets.width_spec (n := n) (by omega)
  have hle : Octets.width n - 1 < 4 :=
    (Nat.pow_lt_pow_iff_right (by decide)).mp (Nat.lt_of_le_of_lt hwidth hhigh)
  have hpos : Octets.width n ≠ 0 := by
    intro h
    rw [h] at hn
    omega
  have hcount : (UInt8.ofNat (0x80 + (Octets.shortest n).length)).toNat
      = 0x80 + (Octets.shortest n).length := by
    rw [UInt8.toNat_ofNat']
    omega
  refine ⟨?_, ?_, by omega, by omega, ?_⟩
  · rw [UInt8.lt_iff_toNat_lt, hcount]
    exact Nat.not_lt.mpr (Nat.le_add_right _ _)
  · intro h
    have h80 := congrArg UInt8.toNat h
    rw [hcount] at h80
    change 0x80 + (Octets.shortest n).length = 0x80 at h80
    omega
  · rw [Octets.toNat_shortest]
    rintro (h | h)
    · exact hlow h
    · exact Octets.head?_shortest n h

theorem readLength_writeLength {n : Nat} (h : n < lengthBound) (rest : Octets) :
    readLength (writeLength n ++ rest) = some (.definite n, rest) := by
  unfold writeLength
  split
  · rename_i hshort
    have hn : (UInt8.ofNat n).toNat = n := by
      rw [UInt8.toNat_ofNat']
      omega
    have hlt : UInt8.ofNat n < 0x80 := by
      rw [UInt8.lt_iff_toNat_lt, hn]
      exact hshort
    simp [readLength, hlt, hn]
  · rename_i hlong
    have hread := readLength_long (isLongLength_shortest hlong h) rest
    rwa [Octets.toNat_shortest] at hread

/-! ### Lengths -/

theorem length_writeLength_pos (n : Nat) : 1 ≤ (writeLength n).length := by
  unfold writeLength
  split
  · exact Nat.le_refl 1
  · exact Nat.le_add_left 1 _

theorem lt_pow_length_writeLength (n : Nat) : n < 256 ^ (writeLength n).length := by
  unfold writeLength
  split
  · show n < 256
    omega
  · rw [List.length_cons, Octets.shortest, Octets.length_ofNat]
    exact Nat.lt_trans (Octets.lt_pow_width n) (Nat.pow_lt_pow_succ (by decide))

theorem length_writeLength_le {n k : Nat} (h : n < 256 ^ k) : (writeLength n).length ≤ k + 1 := by
  unfold writeLength
  split
  · exact Nat.le_add_left 1 k
  · rw [List.length_cons, Octets.shortest, Octets.length_ofNat]
    exact Nat.succ_le_succ (Octets.width_le h)

theorem length_writeLength_mono {m n : Nat} (h : m ≤ n) :
    (writeLength m).length ≤ (writeLength n).length := by
  by_cases hm : m < 0x80
  · rw [writeLength, if_pos hm]
    exact length_writeLength_pos n
  · rw [writeLength, if_neg hm, writeLength, if_neg (by omega)]
    simp only [List.length_cons, Octets.shortest, Octets.length_ofNat]
    exact Nat.succ_le_succ (Octets.width_le (Nat.lt_of_le_of_lt h (Octets.lt_pow_width n)))

/-- A longer content has no shorter header. -/
theorem valueLength_mono {m n : Nat} (h : m ≤ n) : valueLength m ≤ valueLength n := by
  have hheader := length_writeLength_mono h
  unfold valueLength
  omega

/-- The length of a value tells that of its content. -/
theorem valueLength_inj {m n : Nat} (h : valueLength m = valueLength n) : m = n := by
  unfold valueLength at h
  rcases Nat.lt_trichotomy m n with hlt | heq | hgt
  · have hheader := length_writeLength_mono (Nat.le_of_lt hlt)
    omega
  · exact heq
  · have hheader := length_writeLength_mono (Nat.le_of_lt hgt)
    omega

/-- One value does not take more than two that share its content. -/
theorem valueLength_add_le (m n : Nat) :
    valueLength (m + n) ≤ valueLength m + valueLength n := by
  have hm := length_writeLength_pos m
  have hn := length_writeLength_pos n
  have hsum : m + n < 256 ^ ((writeLength m).length + (writeLength n).length) := by
    have hm' := lt_pow_length_writeLength m
    have hn' := lt_pow_length_writeLength n
    have hpow : ∀ k, 1 ≤ k → 2 ≤ 256 ^ k := fun k hk =>
      Nat.le_trans (by decide : 2 ≤ 256 ^ 1) (Nat.pow_le_pow_right (by decide) hk)
    rw [Nat.pow_add]
    have := Nat.add_le_mul (hpow _ hm) (hpow _ hn)
    omega
  have hheader := length_writeLength_le hsum
  unfold valueLength
  omega

/-! ### What a value begins with -/

/-- Values of a tag begin with an octet. -/
structure Opens (b : UInt8) (tag : Tag) (constructed : Bool) : Prop where
  short : b &&& 0x1f ≠ 0x1f
  tag_eq : b &&& 0xdf = tag
  constructed_eq : (b &&& 0x20 != 0) = constructed
  ne_end : tag ≠ Tag.endOfContents

theorem opens_sequence : Opens (Tag.sequence ||| 0x20) Tag.sequence true :=
  ⟨by decide, rfl, rfl, by decide⟩

theorem opens_bitString : Opens Tag.bitString Tag.bitString false :=
  ⟨by decide, rfl, rfl, by decide⟩

theorem opens_octetString : Opens Tag.octetString Tag.octetString false :=
  ⟨by decide, rfl, rfl, by decide⟩

theorem opens_null : Opens Tag.null Tag.null false :=
  ⟨by decide, rfl, rfl, by decide⟩

theorem Opens.readTag {b : UInt8} {tag : Tag} {c : Bool} (h : Opens b tag c) (rest : Octets) :
    readTag (b :: rest) = some (tag, c, rest) := by
  simp only [Der.readTag, if_neg h.short, h.tag_eq, h.constructed_eq]

theorem Opens.readHeader {b : UInt8} {tag : Tag} {c : Bool} (h : Opens b tag c) {n : Nat}
    (hn : n < lengthBound) (rest : Octets) :
    readHeader (b :: (writeLength n ++ rest)) = some (⟨tag, c, .definite n⟩, rest) := by
  simp only [Der.readHeader, h.readTag, Option.bind_eq_bind, Option.bind_some,
    readLength_writeLength hn]
  rfl

/-! ### Readers that take octets -/

/-- Wherever the octets stand, the reader gives this for them and stops behind them. -/
def Takes (r : Reader α) (bs : Octets) (a : α) : Prop :=
  ∀ after missing, r ⟨bs ++ after, missing⟩ = .ok (a, ⟨after, missing⟩)

/-- If the octets are the content of a value, the reader gives this for all of them. -/
def TakesAll (r : Reader α) (bs : Octets) (a : α) : Prop :=
  r ⟨bs, some 0⟩ = .ok (a, ⟨[], some 0⟩)

namespace Takes

variable {r : Reader α} {f : α → Reader β} {a : α} {b : β} {xs ys : Octets}

theorem all (h : Takes r xs a) : TakesAll r xs a := by
  have hrun := h [] (some 0)
  rwa [List.append_nil] at hrun

theorem pure : Takes (Pure.pure a : Reader α) [] a :=
  fun _ _ => rfl

theorem lift {x : Except DecodeError α} (hx : x = .ok a) : Takes (liftM x : Reader α) [] a :=
  fun _ _ => run_lift_eq_ok.mpr ⟨a, hx, rfl⟩

theorem bind (hr : Takes r xs a) (hf : Takes (f a) ys b) : Takes (r >>= f) (xs ++ ys) b := by
  intro after missing
  rw [List.append_assoc]
  exact run_bind_eq_ok.mpr ⟨a, _, hr _ _, hf _ _⟩

theorem bind_all (hr : Takes r xs a) (hf : TakesAll (f a) ys b) :
    TakesAll (r >>= f) (xs ++ ys) b :=
  run_bind_eq_ok.mpr ⟨a, _, hr _ _, hf⟩

theorem bind_nil (hr : Takes r xs a) (hf : Takes (f a) [] b) : Takes (r >>= f) xs b := by
  have h := hr.bind hf
  rwa [List.append_nil] at h

theorem lift_bind {x : Except DecodeError α} (hx : x = .ok a) (hf : Takes (f a) ys b) :
    Takes (liftM x >>= f) ys b :=
  (lift hx).bind hf

end Takes

theorem Takes.decode {r : Reader α} {a : α} {bs : Octets} (h : Takes r bs a) :
    Der.decode r bs = .ok a := by
  have hrun := h [] none
  rw [List.append_nil] at hrun
  rw [Der.decode, Input.whole, hrun]

theorem takes_octet (b : UInt8) : Takes octet [b] b :=
  fun _ _ => rfl

theorem octet_eq_ok {s t : Input} {b : UInt8} :
    octet s = .ok (b, t) ↔ s = ⟨b :: t.octets, t.missing⟩ := by
  obtain ⟨octets, missing⟩ := s
  obtain ⟨rest, missing'⟩ := t
  cases octets with
  | nil => simp [octet]
  | cons c octets => simp [octet, and_assoc]

theorem TakesAll.bind {r : Reader α} {f : α → Reader β} {a : α} {b : β} {bs : Octets}
    (hr : TakesAll r bs a) (hf : TakesAll (f a) [] b) : TakesAll (r >>= f) bs b :=
  run_bind_eq_ok.mpr ⟨a, _, hr, hf⟩

/-! ### Values -/

/-- A value with all of its content. -/
def Element.ofContent (tag : Tag) (constructed : Bool) (content : Octets) : Element :=
  ⟨tag, constructed, ⟨content, some 0⟩⟩

section

variable {b : UInt8} {tag : Tag} {c : Bool} {content : Octets}

theorem Input.split?_length_append (content after : Octets) (missing : Option Nat) :
    Input.split? ⟨content ++ after, missing⟩ content.length
      = some (⟨content, some 0⟩, ⟨after, missing⟩) := by
  cases missing with
  | none => simp [Input.split?]
  | some m => simp [Input.split?]

theorem takes_element? (h : Opens b tag c) (hlen : content.length < lengthBound) :
    Takes element? (value b content) (some (.ofContent tag c content)) := by
  intro after missing
  have hdone : ¬(Input.isDone ⟨value b content ++ after, missing⟩ = true) := by
    simp [Input.isDone, value, announced]
  have hheader : readHeader (value b content ++ after)
      = some (⟨tag, c, .definite content.length⟩, content ++ after) := by
    rw [value, announced, List.cons_append, List.append_assoc]
    exact h.readHeader hlen _
  unfold element?
  rw [if_neg hdone]
  simp only [hheader, if_neg h.ne_end, Input.split?_length_append]
  rfl

theorem takes_element (h : Opens b tag c) (hlen : content.length < lengthBound) :
    Takes element (value b content) (.ofContent tag c content)  :=
  (takes_element? h hlen).bind_nil Takes.pure

theorem takes_elementOf? (h : Opens b tag c) (hlen : content.length < lengthBound) :
    Takes (elementOf? tag) (value b content) (some (.ofContent tag c content)) := by
  intro after missing
  have hne : ¬(value b content ++ after).isEmpty = true := by simp [value, announced]
  have htag : readTag (value b content ++ after)
      = some (tag, c, writeLength content.length ++ content ++ after) := by
    rw [value, announced, List.cons_append]
    exact h.readTag _
  unfold elementOf?
  simp only [if_neg hne, htag]
  exact takes_element? h hlen after missing

theorem takes_elementOf (h : Opens b tag c) (hlen : content.length < lengthBound) :
    Takes (elementOf tag) (value b content) (.ofContent tag c content)  :=
  (takes_elementOf? h hlen).bind_nil Takes.pure

theorem Element.primitive_ofContent :
    (ofContent tag false content).primitive = .ok content := rfl

theorem takes_octetString (hlen : content.length < lengthBound) :
    Takes octetString (octetStringValue content) content :=
  (takes_elementOf opens_octetString hlen).bind_nil (Takes.lift Element.primitive_ofContent)

variable {r : Reader α} {a : α}

theorem Element.inside_ofContent (hr : TakesAll r content a) :
    (ofContent tag true content).inside r = .ok a := by
  have hread : r ⟨content, some 0⟩ = .ok (a, ⟨[], some 0⟩) := hr
  simp only [inside, ofContent, Input.readAll, hread, if_true]
  rfl

theorem takes_inSequence (hr : TakesAll r content a) (hlen : content.length < lengthBound) :
    Takes (inSequence r) (sequenceValue content) a :=
  (takes_elementOf opens_sequence hlen).bind_nil (Takes.lift (Element.inside_ofContent hr))

theorem takes_constructed? (h : Opens (tag ||| 0x20) tag true) (hr : TakesAll r content a)
    (hlen : content.length < lengthBound) :
    Takes (constructed? tag r) (constructedValue tag content) (some a) :=
  (takes_elementOf? h hlen).bind_nil
    (Takes.lift_bind (Element.inside_ofContent hr) Takes.pure)

theorem takes_inSequence? (hr : TakesAll r content a) (hlen : content.length < lengthBound) :
    Takes (inSequence? r) (sequenceValue content) (some a) :=
  takes_constructed? opens_sequence hr hlen

/-- What the content of a value has been read as, it is read as again. -/
theorem Element.takesAll_of_inside {e : Element} {R : α → Octets → Prop} (hr : Reads r R)
    (h : e.inside r = .ok a) : TakesAll r e.content.octets a := by
  obtain ⟨hthere, -, -⟩ := isThere_of_inside hr h
  obtain ⟨-, ⟨rest, missing⟩, ht, hdone⟩ := of_inside h
  simp only [Input.isDone, Bool.and_eq_true, List.isEmpty_iff, beq_iff_eq] at hdone
  obtain ⟨rfl, rfl⟩ := hdone
  have hcontent : e.content = ⟨e.content.octets, some 0⟩ :=
    congrArg (Input.mk e.content.octets) hthere
  rwa [hcontent] at ht

end

theorem length_value (tag : Tag) (content : Octets) :
    (value tag content).length = valueLength content.length := by
  rw [value, announced, valueLength, List.length_cons, List.length_append]
  omega

theorem length_sequenceValue (content : Octets) :
    (sequenceValue content).length = valueLength content.length :=
  length_value _ _

/-! ### Bits -/

theorem toNat_unused {bits : BitString} (h : bits.unused < 8) :
    (UInt8.ofNat bits.unused).toNat = bits.unused := by
  rw [UInt8.toNat_ofNat']
  omega

theorem Element.bitString_ofContent {bits : BitString} (h : bits.IsTrimmed) (tag : Tag) :
    (ofContent tag false (UInt8.ofNat bits.unused :: bits.octets)).bitString = .ok bits := by
  have hunused := toNat_unused h.unused_lt
  have hfew : ¬UInt8.ofNat bits.unused > 7 := by
    rw [gt_iff_lt, UInt8.lt_iff_toNat_lt, hunused]
    have := h.unused_lt
    show ¬7 < bits.unused
    omega
  refine bind_eq_ok.mpr ⟨_, primitive_ofContent, ?_⟩
  dsimp only
  rw [if_neg hfew]
  obtain ⟨unused, octets⟩ := bits
  cases hlast : octets.getLast? with
  | none =>
    obtain rfl := List.getLast?_eq_none_iff.mp hlast
    obtain rfl : unused = 0 := h.nonempty rfl
    rfl
  | some last =>
    have hclear : last.toNat % Nat.pow 2 (UInt8.ofNat unused).toNat = 0 := by
      rw [hunused]
      exact h.clear last hlast
    dsimp only
    rw [if_pos hclear, hunused]
    rfl

theorem Element.of_bitString {e : Element} {bits : BitString} (h : e.bitString = .ok bits) :
    bits.IsTrimmed ∧ e.primitive = .ok (UInt8.ofNat bits.unused :: bits.octets) := by
  obtain ⟨content, hcontent, h⟩ := bind_eq_ok.mp h
  cases content with
  | nil => exact absurd h throw_ne_ok
  | cons unused octets =>
    dsimp only at h
    split at h
    · exact absurd h throw_ne_ok
    · rename_i hfew
      have hlt : unused.toNat < 8 := by
        rw [gt_iff_lt, UInt8.lt_iff_toNat_lt] at hfew
        exact Nat.lt_succ_of_le (Nat.not_lt.mp hfew)
      split at h
      · rename_i hlast
        obtain rfl := List.getLast?_eq_none_iff.mp hlast
        split at h
        · rename_i hzero
          subst hzero
          obtain rfl := pure_eq_ok.mp h
          exact ⟨⟨by decide, fun _ => rfl, by simp⟩, hcontent⟩
        · exact absurd h throw_ne_ok
      · rename_i last hlast
        split at h
        · rename_i hclear
          obtain rfl := pure_eq_ok.mp h
          refine ⟨⟨hlt, fun hnil => ?_, fun x hx => ?_⟩, ?_⟩
          · simp [show octets = [] from hnil] at hlast
          · obtain rfl := Option.some.inj (hlast.symm.trans hx)
            exact hclear
          · rw [hcontent, UInt8.ofNat_toNat]
        · exact absurd h throw_ne_ok

/-! ### Whole numbers -/

/-- The content of a whole number is the only one that it can have. -/
theorem Element.of_unsigned {e : Element} {bs : Octets} (h : e.unsigned = .ok bs) :
    e.primitive = .ok bs ∧ unsignedContent (Octets.toNat bs) = bs := by
  obtain ⟨content, hcontent, h⟩ := bind_eq_ok.mp h
  have hshortest : ∀ b rest, b ≠ 0 → Octets.shortest (Octets.toNat (b :: rest)) = b :: rest :=
    fun b rest hb => Octets.shortest_toNat fun hhead => hb (Option.some.inj hhead)
  rcases content with _ | ⟨b, _ | ⟨c, rest⟩⟩
  · exact absurd h throw_ne_ok
  · -- a single octet, which may be zero
    dsimp only at h
    split at h
    · rename_i hb
      obtain rfl := pure_eq_ok.mp h
      refine ⟨hcontent, ?_⟩
      by_cases hzero : b = 0
      · rw [hzero]
        rfl
      · rw [unsignedContent, hshortest b [] hzero]
        exact if_pos hb
    · exact absurd h throw_ne_ok
  · dsimp only at h
    split at h
    · exact absurd h throw_ne_ok
    · rename_i hfew
      rw [not_or] at hfew
      obtain rfl := pure_eq_ok.mp h
      refine ⟨hcontent, ?_⟩
      by_cases hzero : b = 0
      · -- a zero in front, which the octet behind it needs
        subst hzero
        have hc : ¬c < 0x80 := fun hlt => hfew.2 ⟨rfl, hlt⟩
        have hvalue : Octets.toNat (0 :: c :: rest) = Octets.toNat (c :: rest) := by
          rw [Octets.toNat_cons]
          simp
        have hne : c ≠ 0 := fun h0 => hc (h0 ▸ by decide)
        rw [unsignedContent, hvalue, hshortest c rest hne]
        exact if_neg hc
      · rw [unsignedContent, hshortest b (c :: rest) hzero]
        exact if_pos (UInt8.not_le.mp hfew.1)

theorem Element.of_unsigned32 {e : Element} {n : Nat} (h : e.unsigned32 = .ok n) :
    e.primitive = .ok (unsignedContent n) ∧ n < 4294967296 := by
  obtain ⟨bs, hbs, h⟩ := bind_eq_ok.mp h
  obtain ⟨hprimitive, hcontent⟩ := of_unsigned hbs
  dsimp only at h
  split at h
  · rename_i hn
    obtain rfl := pure_eq_ok.mp h
    exact ⟨hcontent.symm ▸ hprimitive, hn⟩
  · exact absurd h throw_ne_ok

/-! ### Repetitions -/

section

variable {step : σ → Reader (Option σ)} {f : σ → β → Except DecodeError σ} {enc : β → Octets}

/-- The reader takes an item, which carries every state on as it should. -/
def Carries (step : σ → Reader (Option σ)) (f : σ → β → Except DecodeError σ) (enc : β → Octets)
    (x : β) : Prop :=
  enc x ≠ [] ∧ ∀ s t, f s x = .ok t → Takes (step s) (enc x) (some t)

theorem takesAll_repeatUpTo (hend : ∀ s, TakesAll (step s) [] none) :
    ∀ {items : List β} {n : Nat} {s t : σ}, (∀ x ∈ items, Carries step f enc x) →
      items.length ≤ n → items.foldlM f s = .ok t →
        TakesAll (repeatUpTo step n s) (items.flatMap enc) t
  | [], 0, s, t, _, _, ht => by
    rw [List.foldlM_nil, pure_eq_ok] at ht
    exact ht ▸ rfl
  | [], n + 1, s, t, _, _, ht => by
    rw [List.foldlM_nil, pure_eq_ok] at ht
    subst ht
    exact (hend s).bind rfl
  | x :: items, 0, s, t, _, hn, _ => by simp at hn
  | x :: items, n + 1, s, t, hitems, hn, ht => by
    rw [List.foldlM_cons] at ht
    obtain ⟨u, hu, ht⟩ := bind_eq_ok.mp ht
    rw [List.length_cons] at hn
    have hrest := takesAll_repeatUpTo hend (n := n)
      (fun y hy => hitems y (List.mem_cons_of_mem _ hy)) (by omega) ht
    rw [List.flatMap_cons]
    exact ((hitems x List.mem_cons_self).2 s u hu).bind_all hrest

theorem length_le_flatMap : ∀ {items : List β}, (∀ x ∈ items, enc x ≠ []) →
    items.length ≤ (items.flatMap enc).length
  | [], _ => Nat.zero_le _
  | x :: items, h => by
    have hx := List.length_pos_iff.mpr (h x List.mem_cons_self)
    have ih := length_le_flatMap fun y hy => h y (List.mem_cons_of_mem _ hy)
    rw [List.flatMap_cons, List.length_append, List.length_cons]
    omega

theorem length_le_flatMap_of_mem {x : β} {items : List β} (h : x ∈ items) :
    (enc x).length ≤ (items.flatMap enc).length :=
  (List.sublist_flatten_of_mem (List.mem_map_of_mem h)).length_le

/-- Items that carry the state on one after the other are taken one after the other. -/
theorem takesAll_repeated (hend : ∀ s, TakesAll (step s) [] none) {items : List β} {s t : σ}
    (hitems : ∀ x ∈ items, Carries step f enc x) (ht : items.foldlM f s = .ok t) :
    TakesAll (repeated step s) (items.flatMap enc) t := by
  have hcount := length_le_flatMap fun x hx => (hitems x hx).1
  exact takesAll_repeatUpTo (n := (items.flatMap enc).length + 1) hend hitems (by omega) ht

end

end Der

end ResourcePki

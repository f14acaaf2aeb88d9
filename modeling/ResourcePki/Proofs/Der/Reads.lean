import ResourcePki.Proofs.Der.Ensures
import ResourcePki.Proofs.Der.Header

/-!
What has been read stands there.

`Reads r R` says that whatever `r` gives comes from octets at the beginning of its input to which it
stands in the relation `R`. A value whose content has been understood is all there, so nothing of
what was announced but is missing has been taken; and its header can only be spelled in one way.
The relation of a reader is therefore an encoding: that of a sequence is the written form of the
encoding of what is inside, that of a list the encodings of its items one after the other.
-/

namespace ResourcePki.Der

variable {α β σ : Type}

/-- Whatever a reader gives stands in a relation to the octets that it has been read from. -/
def Reads (r : Reader α) (R : α → Octets → Prop) : Prop :=
  ∀ s a t, r s = .ok (a, t) → ∃ bs, s.octets = bs ++ t.octets ∧ t.missing = s.missing ∧ R a bs

namespace Reads

variable {r : Reader α} {f : α → Reader β} {R R' : α → Octets → Prop}
  {S : α → β → Octets → Prop}

theorem pure {a : α} (h : R a []) : Reads (Pure.pure a : Reader α) R := by
  intro s b t hb
  rw [run_pure_eq_ok, Prod.mk.injEq] at hb
  obtain ⟨rfl, rfl⟩ := hb
  exact ⟨[], rfl, rfl, h⟩

theorem throw {e : DecodeError} : Reads (MonadExcept.throw e : Reader α) R :=
  fun _ _ _ h => absurd h run_throw_ne_ok

/-- A block that has thrown an error does not go on. -/
theorem throw_bind {e : DecodeError} {T : β → Octets → Prop} :
    Reads ((MonadExcept.throw e : Reader α) >>= f) T := by
  intro s b t h
  obtain ⟨a, u, ha, -⟩ := run_bind_eq_ok.mp h
  exact absurd ha run_throw_ne_ok

theorem ite {c : Prop} [Decidable c] {r' : Reader α} (ht : c → Reads r R) (hf : ¬c → Reads r' R) :
    Reads (if c then r else r') R := by
  split
  · rename_i hc
    exact ht hc
  · rename_i hc
    exact hf hc

theorem bind (hr : Reads r R) (hf : ∀ a, Reads (f a) (S a)) :
    Reads (r >>= f) fun b bs => ∃ a xs ys, bs = xs ++ ys ∧ R a xs ∧ S a b ys := by
  intro s b t h
  obtain ⟨a, u, ha, hb⟩ := run_bind_eq_ok.mp h
  obtain ⟨xs, hxs, hmx, hR⟩ := hr s a u ha
  obtain ⟨ys, hys, hmy, hS⟩ := hf a u b t hb
  refine ⟨xs ++ ys, ?_, hmy.trans hmx, a, xs, ys, rfl, hR, hS⟩
  rw [hxs, hys, List.append_assoc]

/-- A computation that can fail reads nothing. -/
theorem lift_bind {x : Except DecodeError α} {T : β → Octets → Prop}
    (hf : ∀ a, x = .ok a → Reads (f a) T) : Reads (liftM x >>= f) T := by
  intro s b t h
  obtain ⟨a, u, ha, hb⟩ := run_bind_eq_ok.mp h
  obtain ⟨a', hx, hu⟩ := run_lift_eq_ok.mp ha
  rw [Prod.mk.injEq] at hu
  obtain ⟨rfl, rfl⟩ := hu
  exact hf a hx _ _ _ hb

theorem lift {x : Except DecodeError α} (hx : ∀ a, x = .ok a → R a []) :
    Reads (liftM x : Reader α) R := by
  intro s a t h
  obtain ⟨a', ha, hu⟩ := run_lift_eq_ok.mp h
  rw [Prod.mk.injEq] at hu
  obtain ⟨rfl, rfl⟩ := hu
  exact ⟨[], rfl, rfl, hx a ha⟩

theorem weaken (hr : Reads r R) (h : ∀ a bs, R a bs → R' a bs) : Reads r R' := by
  intro s a t ha
  obtain ⟨bs, hbs, hm, hR⟩ := hr s a t ha
  exact ⟨bs, hbs, hm, h a bs hR⟩

/-- What whatever is read has in common may be added to where it has been read from. -/
theorem ensuring {P : α → Prop} (hr : Reads r R) (hp : Ensures r P) :
    Reads r fun a bs => R a bs ∧ P a := by
  intro s a t ha
  obtain ⟨bs, hbs, hm, hR⟩ := hr s a t ha
  exact ⟨bs, hbs, hm, hR, hp s a t ha⟩

/-- What is read from the beginning of data stands at the beginning of it. -/
theorem of_decode (hr : Reads r R) {data : Octets} {a : α} (h : decode r data = .ok a) :
    ∃ bs, bs <+: data ∧ R a bs := by
  obtain ⟨t, ht⟩ := Der.of_decode h
  obtain ⟨bs, hbs, -, hR⟩ := hr _ _ _ ht
  exact ⟨bs, ⟨t.octets, hbs.symm⟩, hR⟩

/-- What all of an input is read from is all of it, and nothing of it is missing. -/
theorem of_readAll (hr : Reads r R) {s : Input} {a : α} (h : s.readAll r = .ok a) :
    s.missing = some 0 ∧ R a s.octets := by
  obtain ⟨t, ht, hdone⟩ := Input.of_readAll h
  obtain ⟨bs, hbs, hm, hR⟩ := hr _ _ _ ht
  simp only [Input.isDone, Bool.and_eq_true, List.isEmpty_iff, beq_iff_eq] at hdone
  rw [hdone.1, List.append_nil] at hbs
  exact ⟨hm.symm.trans hdone.2, hbs ▸ hR⟩

end Reads

/-! ### Values -/

/-- If the content of a value is all there, it has been cut out of the input, and what is missing
    further on stays missing. -/
theorem Input.split?_there {s content after : Input} {n : Nat}
    (h : s.split? n = some (content, after)) (hthere : content.missing = some 0) :
    n = content.octets.length ∧ s.octets = content.octets ++ after.octets ∧
      after.missing = s.missing := by
  unfold Input.split? at h
  dsimp only at h
  split at h
  · rename_i hm
    simp only [Option.some.injEq, Prod.mk.injEq] at h
    obtain ⟨rfl, rfl⟩ := h
    simp only [Option.some.injEq, List.length_take] at hthere
    exact ⟨by simp; omega, (List.take_append_drop n s.octets).symm, hm.symm⟩
  · rename_i m hm
    split at h
    · simp only [Option.some.injEq, Prod.mk.injEq] at h
      obtain ⟨rfl, rfl⟩ := h
      simp only [Option.some.injEq, List.length_take] at hthere
      exact ⟨by simp; omega, (List.take_append_drop n s.octets).symm, by simp [hm, hthere]⟩
    · simp at h

/-- How the next value is found: its header, a length that is definite, and its content cut out. -/
theorem element?_cases {s t : Input} {o : Option Element} (h : element? s = .ok (o, t)) :
    o = none ∧ t = s ∨ ∃ e n rest, o = some e ∧
      readHeader s.octets = some (⟨e.tag, e.constructed, .definite n⟩, rest) ∧
      Input.split? ⟨rest, s.missing⟩ n = some (e.content, t) := by
  unfold element? at h
  split at h
  · simp only [Except.ok.injEq, Prod.mk.injEq] at h
    exact Or.inl ⟨h.1.symm, h.2.symm⟩
  · split at h
    · simp at h
    · simp at h
    · rename_i tag c n rest hheader
      split at h
      · simp at h
      · split at h
        · simp at h
        · rename_i content after hsplit
          simp only [Except.ok.injEq, Prod.mk.injEq] at h
          obtain ⟨rfl, rfl⟩ := h
          exact Or.inr ⟨⟨tag, c, content⟩, n, rest, rfl, hheader, hsplit⟩

/-- An expected value is the next one, and it has the tag that is asked for. -/
theorem elementOf?_cases {tag : Tag} {s t : Input} {o : Option Element}
    (h : elementOf? tag s = .ok (o, t)) :
    o = none ∧ t = s ∨ ∃ e, o = some e ∧ e.tag = tag ∧ element? s = .ok (some e, t) := by
  unfold elementOf? at h
  split at h
  · simp only [Except.ok.injEq, Prod.mk.injEq] at h
    exact Or.inl ⟨h.1.symm, h.2.symm⟩
  · split at h
    · simp at h
    · rename_i found c rest htag
      split at h
      · rename_i hfound
        obtain ⟨rfl, rfl⟩ | ⟨e, n, rest', rfl, hheader, -⟩ := element?_cases h
        · exact Or.inl ⟨rfl, rfl⟩
        · -- the header begins with the tag that has been looked at
          refine Or.inr ⟨e, rfl, ?_, h⟩
          simp only [readHeader, htag, Option.bind_eq_bind, Option.bind_some] at hheader
          obtain ⟨x, -, hx⟩ := Option.bind_eq_some_iff.mp hheader
          simp only [pure, Option.some.injEq, Prod.mk.injEq, Header.mk.injEq] at hx
          exact hx.1.1.symm.trans hfound
      · simp only [Except.ok.injEq, Prod.mk.injEq] at h
        exact Or.inl ⟨h.1.symm, h.2.symm⟩

theorem elementOf_eq_ok {tag : Tag} {s t : Input} {e : Element}
    (h : elementOf tag s = .ok (e, t)) : e.tag = tag ∧ element? s = .ok (some e, t) := by
  obtain ⟨o, u, ho, hfound⟩ := run_bind_eq_ok.mp h
  obtain ⟨rfl, rfl⟩ | ⟨e', rfl, htag, he⟩ := elementOf?_cases ho
  · exact absurd hfound run_throw_ne_ok
  · rw [run_pure_eq_ok, Prod.mk.injEq] at hfound
    obtain ⟨rfl, rfl⟩ := hfound
    exact ⟨htag, he⟩

theorem Element.of_primitive {e : Element} {bs : Octets} (h : e.primitive = .ok bs) :
    e.constructed = false ∧ e.content.missing = some 0 ∧ e.content.octets = bs := by
  unfold Element.primitive at h
  split at h
  · rename_i hp
    simp only [Bool.and_eq_true, Bool.not_eq_true', beq_iff_eq] at hp
    exact ⟨hp.1, hp.2, Except.ok.inj h⟩
  · simp at h

/-! ### Elements that are all there -/

/-- All octets of the content that have been announced are there. -/
def Element.IsThere (e : Element) : Prop :=
  e.content.missing = some 0

/-- The octets that a value has been read from: there is only one way to spell it if its tag has one
    octet. -/
def Element.IsSpelled (e : Element) (bs : Octets) : Prop :=
  e.tag &&& 0x1f ≠ 0x1f → bs = value (e.tag ||| if e.constructed then 0x20 else 0) e.content.octets

namespace Element

variable {e : Element} {a : α}

theorem isThere_of_primitive {bs : Octets} (h : e.primitive = .ok bs) : e.IsThere :=
  (of_primitive h).2.1

/-- Whatever is made of the content of a value, it is there. -/
theorem isThere_of_primitive_bind {f : Octets → Except DecodeError α}
    (h : (e.primitive >>= f) = .ok a) : e.IsThere := by
  obtain ⟨bs, hbs, -⟩ := bind_eq_ok.mp h
  exact isThere_of_primitive hbs

theorem isThere_of_inside {r : Reader α} {R : α → Octets → Prop} (hr : Reads r R)
    (h : e.inside r = .ok a) : e.IsThere ∧ e.constructed = true ∧ R a e.content.octets := by
  unfold inside at h
  split at h
  · rename_i hc
    obtain ⟨hthere, hR⟩ := hr.of_readAll h
    exact ⟨hthere, hc, hR⟩
  · simp at h

/-- The spelling of a value that is not made of others. -/
theorem IsSpelled.eq_value {bs content : Octets} (h : e.IsSpelled bs)
    (hshort : e.tag &&& 0x1f ≠ 0x1f) (hcontent : e.primitive = .ok content) :
    bs = value e.tag content := by
  obtain ⟨hc, -, rfl⟩ := of_primitive hcontent
  rw [h hshort, hc]
  simp

/-- The spelling of a value that is made of others. -/
theorem IsSpelled.eq_constructedValue {bs : Octets} (h : e.IsSpelled bs)
    (hshort : e.tag &&& 0x1f ≠ 0x1f) (hc : e.constructed = true) :
    bs = constructedValue e.tag e.content.octets := by
  rw [h hshort, hc]
  rfl

end Element

/-- What is known of the input behind a value that is there. -/
theorem element?_there {s t : Input} {e : Element} (h : element? s = .ok (some e, t))
    (hthere : e.IsThere) :
    ∃ bs, s.octets = bs ++ t.octets ∧ t.missing = s.missing ∧ e.IsSpelled bs := by
  obtain ⟨ho, -⟩ | ⟨e', n, rest, ho, hheader, hsplit⟩ := element?_cases h
  · simp at ho
  · obtain rfl := Option.some.inj ho
    obtain ⟨hn, hrest, hmissing⟩ := Input.split?_there hsplit hthere
    obtain ⟨hd, hhd, -⟩ := readHeader_frame hheader
    refine ⟨hd ++ e.content.octets, ?_, hmissing, fun hshort => ?_⟩
    · rw [hhd, List.append_assoc, ← hrest]
    · have hspelled := eq_of_readHeader hheader hshort
      rw [hhd, ← List.cons_append] at hspelled
      rw [List.append_cancel_right hspelled, hn, value, announced, List.cons_append]

/-- A value has no more content than its header can announce. -/
theorem length_lt_of_element? {s t : Input} {e : Element} (h : element? s = .ok (some e, t)) :
    e.content.octets.length < lengthBound := by
  obtain ⟨ho, -⟩ | ⟨e', n, rest, ho, hheader, hsplit⟩ := element?_cases h
  · simp at ho
  · obtain rfl := Option.some.inj ho
    refine Nat.lt_of_le_of_lt ?_ (lt_of_readHeader hheader)
    unfold Input.split? at hsplit
    dsimp only at hsplit
    split at hsplit
    · simp only [Option.some.injEq, Prod.mk.injEq] at hsplit
      rw [← hsplit.1, List.length_take]
      exact Nat.min_le_left n _
    · split at hsplit
      · simp only [Option.some.injEq, Prod.mk.injEq] at hsplit
        rw [← hsplit.1, List.length_take]
        exact Nat.min_le_left n _
      · simp at hsplit

theorem element_eq_ok {s t : Input} {e : Element} (h : element s = .ok (e, t)) :
    element? s = .ok (some e, t) := by
  obtain ⟨o, u, ho, hrest⟩ := run_bind_eq_ok.mp h
  cases o with
  | none => exact absurd hrest run_throw_ne_ok
  | some e' =>
    rw [run_pure_eq_ok, Prod.mk.injEq] at hrest
    obtain ⟨rfl, rfl⟩ := hrest
    exact ho

/-! ### Readers of values -/

section

variable {R : α → Octets → Prop}

/-- What has been read behind a value that is there has been read behind its octets. -/
theorem reads_of_element? {s t u : Input} {e : Element} {r : Reader α} {a : α}
    (he : element? s = .ok (some e, u)) (ha : r u = .ok (a, t))
    (hr : Reads r fun a ys => e.IsThere ∧ ∀ xs, e.IsSpelled xs → R a (xs ++ ys)) :
    ∃ bs, s.octets = bs ++ t.octets ∧ t.missing = s.missing ∧ R a bs := by
  obtain ⟨ys, hys, hmy, hthere, hR⟩ := hr u a t ha
  obtain ⟨xs, hxs, hmx, hspelled⟩ := element?_there he hthere
  refine ⟨xs ++ ys, ?_, hmy.trans hmx, hR xs hspelled⟩
  rw [hxs, hys, List.append_assoc]

theorem reads_element?_bind {g : Option Element → Reader α} (hnone : Reads (g none) R)
    (hsome : ∀ e, Reads (g (some e)) fun a ys =>
      e.IsThere ∧ ∀ xs, e.IsSpelled xs → R a (xs ++ ys)) : Reads (element? >>= g) R := by
  intro s a t h
  obtain ⟨o, u, ho, ha⟩ := run_bind_eq_ok.mp h
  cases o with
  | none =>
    obtain ⟨-, rfl⟩ | ⟨e, -, -, he, -⟩ := element?_cases ho
    · exact hnone _ a t ha
    · simp at he
  | some e => exact reads_of_element? ho ha (hsome e)

theorem reads_element_bind {g : Element → Reader α}
    (hg : ∀ e, Reads (g e) fun a ys => e.IsThere ∧ ∀ xs, e.IsSpelled xs → R a (xs ++ ys)) :
    Reads (element >>= g) R := by
  intro s a t h
  obtain ⟨e, u, he, ha⟩ := run_bind_eq_ok.mp h
  exact reads_of_element? (element_eq_ok he) ha (hg e)

theorem reads_elementOf_bind {tag : Tag} {g : Element → Reader α}
    (hg : ∀ e, e.tag = tag → Reads (g e) fun a ys =>
      e.IsThere ∧ ∀ xs, e.IsSpelled xs → R a (xs ++ ys)) : Reads (elementOf tag >>= g) R := by
  intro s a t h
  obtain ⟨e, u, he, ha⟩ := run_bind_eq_ok.mp h
  obtain ⟨htag, hnext⟩ := elementOf_eq_ok he
  exact reads_of_element? hnext ha (hg e htag)

theorem reads_elementOf?_bind {tag : Tag} {g : Option Element → Reader α}
    (hnone : Reads (g none) R)
    (hsome : ∀ e, e.tag = tag → Reads (g (some e)) fun a ys =>
      e.IsThere ∧ ∀ xs, e.IsSpelled xs → R a (xs ++ ys)) : Reads (elementOf? tag >>= g) R := by
  intro s a t h
  obtain ⟨o, u, ho, ha⟩ := run_bind_eq_ok.mp h
  obtain ⟨rfl, rfl⟩ | ⟨e, rfl, htag, hnext⟩ := elementOf?_cases ho
  · exact hnone _ a t ha
  · exact reads_of_element? hnext ha (hsome e htag)

end

section

variable {tag : Tag} {R : α → Octets → Prop} {enc : α → Octets}

/-- A value that is not made of others, with what is read behind it. -/
theorem reads_elementOf {g : Element → Reader α} {S : Octets → α → Octets → Prop}
    (hshort : tag &&& 0x1f ≠ 0x1f)
    (hg : ∀ e, Reads (g e) fun a ys => ∃ content, e.primitive = .ok content ∧ S content a ys) :
    Reads (elementOf tag >>= g) fun a bs => ∃ content ys, bs = value tag content ++ ys ∧
      S content a ys := by
  refine reads_elementOf_bind fun e htag => (hg e).weaken fun a ys ⟨content, hcontent, hS⟩ => ?_
  refine ⟨Element.isThere_of_primitive hcontent, fun xs hxs => ⟨content, ys, ?_, hS⟩⟩
  rw [hxs.eq_value (htag ▸ hshort) hcontent, htag]

/-- A value that is made of others. -/
theorem reads_constructed {r : Reader α} (hshort : tag &&& 0x1f ≠ 0x1f) (hr : Reads r R) :
    Reads (constructed tag r) fun a bs => ∃ content, bs = constructedValue tag content ∧
      R a content := by
  refine reads_elementOf_bind fun e htag => Reads.lift fun a ha => ?_
  obtain ⟨hthere, hc, hR⟩ := Element.isThere_of_inside hr ha
  refine ⟨hthere, fun xs hxs => ⟨e.content.octets, ?_, hR⟩⟩
  rw [List.append_nil, hxs.eq_constructedValue (htag ▸ hshort) hc, htag]

theorem reads_inSequence {r : Reader α} (hr : Reads r R) :
    Reads (inSequence r) fun a bs => ∃ content, bs = sequenceValue content ∧ R a content :=
  reads_constructed (by decide) hr

/-- What a sequence is made of, if the next value is one. -/
theorem reads_inSequence? {r : Reader α} (hr : Reads r R) :
    Reads (inSequence? r) fun o bs =>
      o.elim (bs = []) fun a => ∃ content, bs = sequenceValue content ∧ R a content := by
  refine reads_elementOf?_bind (Reads.pure rfl) fun e htag => Reads.lift_bind fun a ha => ?_
  obtain ⟨hthere, hc, hR⟩ := Element.isThere_of_inside hr ha
  refine Reads.pure ⟨hthere, fun xs hxs => ⟨e.content.octets, ?_, hR⟩⟩
  rw [List.append_nil, hxs.eq_constructedValue (htag ▸ by decide) hc, htag]
  rfl

/-- What a sequence has been read from is not longer than a header can announce. -/
theorem of_inSequence {r : Reader α} (hr : Reads r R) {s t : Input} {a : α}
    (h : inSequence r s = .ok (a, t)) : ∃ content, content.length < lengthBound ∧ R a content := by
  obtain ⟨e, u, he, h⟩ := run_bind_eq_ok.mp h
  obtain ⟨a', ha, hu⟩ := run_lift_eq_ok.mp h
  rw [Prod.mk.injEq] at hu
  obtain ⟨rfl, -⟩ := hu
  obtain ⟨-, hnext⟩ := elementOf_eq_ok he
  exact ⟨_, length_lt_of_element? hnext, (Element.isThere_of_inside hr ha).2.2⟩

/-- A value that is not made of others, if it is the next one. -/
theorem reads_primitive? {f : Element → Except DecodeError α} (hshort : tag &&& 0x1f ≠ 0x1f)
    (hf : ∀ e a, f e = .ok a → e.primitive = .ok (enc a)) :
    Reads (elementOf? tag >>= fun o => match o with
      | some e => liftM (f e) >>= fun a => pure (some a)
      | none => pure none) fun o bs => bs = o.elim [] (value tag ∘ enc) := by
  refine reads_elementOf?_bind (Reads.pure rfl) fun e htag => Reads.lift_bind fun a ha => ?_
  have hcontent := hf e a ha
  refine Reads.pure ⟨Element.isThere_of_primitive hcontent, fun xs hxs => ?_⟩
  rw [List.append_nil, hxs.eq_value (htag ▸ hshort) hcontent, htag]
  rfl

end

/-! ### Repetitions -/

section

variable {enc : α → Octets}

theorem reads_manyUpTo {item : Reader (Option α)}
    (hitem : Reads item fun o bs => bs = o.elim [] enc) :
    ∀ n, Reads (manyUpTo item n) fun as bs => bs = as.flatMap enc
  | 0 => Reads.pure rfl
  | n + 1 => by
    intro s as t h
    obtain ⟨o, u, ho, hrest⟩ := run_bind_eq_ok.mp h
    obtain ⟨xs, hxs, hmx, rfl⟩ := hitem _ _ _ ho
    cases o with
    | none =>
      rw [run_pure_eq_ok, Prod.mk.injEq] at hrest
      obtain ⟨rfl, rfl⟩ := hrest
      exact ⟨[], hxs, hmx, rfl⟩
    | some a =>
      obtain ⟨bs, v, hbs, hpure⟩ := run_bind_eq_ok.mp hrest
      rw [run_pure_eq_ok, Prod.mk.injEq] at hpure
      obtain ⟨rfl, rfl⟩ := hpure
      obtain ⟨ys, hys, hmy, rfl⟩ := reads_manyUpTo hitem n _ _ _ hbs
      exact ⟨enc a ++ bs.flatMap enc, by simp [hxs, hys], hmy.trans hmx, by simp⟩

/-- Items one after the other. -/
theorem reads_many {item : Reader (Option α)}
    (hitem : Reads item fun o bs => bs = o.elim [] enc) :
    Reads (many item) fun as bs => bs = as.flatMap enc :=
  fun s => reads_manyUpTo hitem (s.octets.length + 1) s

end

/-- What single steps do to a state, a repetition does to it. -/
theorem reads_repeated {step : σ → Reader (Option σ)} {R : σ → σ → Octets → Prop}
    (hrefl : ∀ s, R s s [])
    (htrans : ∀ {s t u xs ys}, R s t xs → R t u ys → R s u (xs ++ ys))
    (hstep : ∀ s, Reads (step s) fun o bs => R s (o.getD s) bs) (s : σ) :
    Reads (repeated step s) (R s) := by
  have hupTo : ∀ n s, Reads (repeatUpTo step n s) (R s) := by
    intro n
    induction n with
    | zero => exact fun s => Reads.pure (hrefl s)
    | succ n ih =>
      intro s
      refine ((hstep s).bind (S := fun o t ys => R (o.getD s) t ys) fun o => ?_).weaken ?_
      · cases o with
        | none => exact Reads.pure (hrefl s)
        | some t => exact ih t
      · rintro t bs ⟨o, xs, ys, rfl, hxs, hys⟩
        exact htrans hxs hys
  exact fun i => hupTo (i.octets.length + 1) s i

end ResourcePki.Der

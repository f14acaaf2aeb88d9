import ResourcePki.Proofs.Der.WellFormed

/-!
Where a written value ends.

The length in front of a content is the only one that can stand there, so two strings that begin
with written values are equal only if the values and what follows them are. In the same way a reader
that meets a written value does what is done with its content and nothing else: it fails as that
fails, and goes on behind the value. A repetition over written items therefore is a fold over the
items, errors included.
-/

namespace ResourcePki.Der

variable {α β σ : Type}

/-! ### One way to cut -/

theorem writeLength_append_inj {m n : Nat} {x y : Octets} (hm : m < lengthBound)
    (hn : n < lengthBound) (h : writeLength m ++ x = writeLength n ++ y) : m = n ∧ x = y := by
  have hread := readLength_writeLength hm x
  rw [h, readLength_writeLength hn, Option.some.injEq, Prod.mk.injEq] at hread
  exact ⟨(Length.definite.inj hread.1).symm, hread.2.symm⟩

theorem length_le_length_value (tag : Tag) (content : Octets) :
    content.length ≤ (value tag content).length := by
  rw [length_value, valueLength]
  omega

theorem length_lt_of_value {tag : Tag} {content : Octets} {n : Nat}
    (h : (value tag content).length < n) : content.length < n :=
  Nat.lt_of_le_of_lt (length_le_length_value tag content) h

theorem value_ne_nil (tag : Tag) (content : Octets) : value tag content ≠ [] := by
  simp [value, announced]

theorem sequenceValue_ne_nil (content : Octets) : sequenceValue content ≠ [] :=
  value_ne_nil _ _

/-- What begins with a value begins with no other one. -/
theorem value_append_inj {s t : Tag} {a b x y : Octets}
    (hlen : (value s a ++ x).length < lengthBound) (h : value s a ++ x = value t b ++ y) :
    s = t ∧ a = b ∧ x = y := by
  have ha := length_le_length_value s a
  have hb := length_le_length_value t b
  have hlen' := hlen
  rw [h] at hlen'
  rw [List.length_append] at hlen hlen'
  simp only [value, announced, List.cons_append, List.append_assoc, List.cons.injEq] at h
  obtain ⟨rfl, h⟩ := h
  obtain ⟨hlength, h⟩ := writeLength_append_inj (by omega) (by omega) h
  obtain ⟨rfl, rfl⟩ := List.append_inj h hlength
  exact ⟨rfl, rfl, rfl⟩

/-- A value has one content, however long it is. -/
theorem value_inj {s t : Tag} {a b : Octets} (h : value s a = value t b) : s = t ∧ a = b := by
  have hlength : a.length = b.length := by
    have hvalue := congrArg List.length h
    rw [length_value, length_value] at hvalue
    exact valueLength_inj hvalue
  simp only [value, announced, hlength, List.cons.injEq] at h
  exact ⟨h.1, List.append_cancel_left h.2⟩

theorem sequenceValue_inj {a b : Octets} (h : sequenceValue a = sequenceValue b) : a = b :=
  (value_inj h).2

/-! ### What is done with a written value -/

/-- Behind octets that a reader takes, what comes next goes on. -/
theorem Takes.run_bind {r : Reader α} {f : α → Reader β} {a : α} {xs : Octets} (h : Takes r xs a)
    (after : Octets) (missing : Option Nat) :
    (r >>= f) ⟨xs ++ after, missing⟩ = f a ⟨after, missing⟩ := by
  show (r ⟨xs ++ after, missing⟩ >>= _) = _
  rw [h after missing]
  rfl

theorem Takes.readAll_bind {r : Reader α} {f : α → Reader β} {a : α} {xs : Octets}
    (h : Takes r xs a) (after : Octets) :
    (⟨xs ++ after, some 0⟩ : Input).readAll (r >>= f)
      = (⟨after, some 0⟩ : Input).readAll (f a) := by
  rw [Input.readAll, h.run_bind]
  rfl

section

variable {content : Octets} {r : Reader α}

theorem Element.inside_eq_readAll (tag : Tag) :
    (ofContent tag true content).inside r = (⟨content, some 0⟩ : Input).readAll r := rfl

/-- A sequence that has been written is read as its content is. -/
theorem inSequence?_sequenceValue (hlen : content.length < lengthBound) (after : Octets)
    (missing : Option Nat) :
    inSequence? r ⟨sequenceValue content ++ after, missing⟩
      = ((⟨content, some 0⟩ : Input).readAll r).map fun a => (some a, ⟨after, missing⟩) := by
  refine ((takes_elementOf? opens_sequence hlen).run_bind after missing).trans ?_
  show ((Element.ofContent Tag.sequence true content).inside r >>= _) >>= _ = _
  rw [Element.inside_eq_readAll]
  cases (⟨content, some 0⟩ : Input).readAll r with
  | error e => rfl
  | ok a => rfl

/-- A value made of others that has been written is read as its content is. -/
theorem constructed_constructedValue {tag : Tag} (h : Opens (tag ||| 0x20) tag true)
    (hlen : content.length < lengthBound) (after : Octets) (missing : Option Nat) :
    constructed tag r ⟨constructedValue tag content ++ after, missing⟩
      = ((⟨content, some 0⟩ : Input).readAll r).map fun a => (a, ⟨after, missing⟩) := by
  refine ((takes_elementOf h hlen).run_bind after missing).trans ?_
  show (Element.ofContent tag true content).inside r >>= _ = _
  rw [Element.inside_eq_readAll]
  cases (⟨content, some 0⟩ : Input).readAll r with
  | error e => rfl
  | ok a => rfl

theorem inSequence_sequenceValue (hlen : content.length < lengthBound) (after : Octets)
    (missing : Option Nat) :
    inSequence r ⟨sequenceValue content ++ after, missing⟩
      = ((⟨content, some 0⟩ : Input).readAll r).map fun a => (a, ⟨after, missing⟩) :=
  constructed_constructedValue opens_sequence hlen after missing

/-- If there is nothing else, reading all is reading what the value is made of. -/
theorem readAll_constructedValue {tag : Tag} (h : Opens (tag ||| 0x20) tag true)
    (hlen : content.length < lengthBound) :
    (⟨constructedValue tag content, some 0⟩ : Input).readAll (constructed tag r)
      = (⟨content, some 0⟩ : Input).readAll r := by
  have hrun := constructed_constructedValue (r := r) h hlen [] (some 0)
  rw [List.append_nil] at hrun
  rw [Input.readAll, hrun]
  cases (⟨content, some 0⟩ : Input).readAll r with
  | error e => rfl
  | ok a => rfl

/-- Data that begins with a written sequence is decoded as its content is read. -/
theorem decode_inSequence (hlen : content.length < lengthBound) (after : Octets) :
    decode (inSequence r) (sequenceValue content ++ after)
      = (⟨content, some 0⟩ : Input).readAll r := by
  rw [decode, Input.whole, inSequence_sequenceValue hlen]
  cases (⟨content, some 0⟩ : Input).readAll r with
  | error e => rfl
  | ok a => rfl

end

/-- What a reader has made of an input may be made into something else. -/
theorem readAll_bind_pure {r : Reader α} {g : α → β} {s : Input} :
    s.readAll (r >>= fun a => pure (g a)) = (s.readAll r).map g := by
  have hrun : (r >>= fun a => pure (g a)) s = (r s >>= fun x => .ok (g x.1, x.2)) := rfl
  rw [Input.readAll, Input.readAll, hrun]
  cases r s with
  | error e => rfl
  | ok x =>
    show (if x.2.isDone then Except.ok (g x.1) else Except.error DecodeError.malformed)
      = (if x.2.isDone then Except.ok x.1 else Except.error DecodeError.malformed).map g
    split
    · rfl
    · rfl

/-! ### Repetitions -/

section

variable {step : σ → Reader (Option σ)} {f : σ → β → Except DecodeError σ} {enc : β → Octets}

/-- A step meets an item as it has been written and does with the state what is to be done with it,
    failing as that fails. -/
def Meets (step : σ → Reader (Option σ)) (f : σ → β → Except DecodeError σ) (enc : β → Octets)
    (x : β) : Prop :=
  enc x ≠ [] ∧ ∀ s after missing,
    step s ⟨enc x ++ after, missing⟩ = (f s x).map fun t => (some t, ⟨after, missing⟩)

theorem repeatUpTo_eq_foldlM (hend : ∀ s, TakesAll (step s) [] none) :
    ∀ {items : List β} {n : Nat} {s : σ}, (∀ x ∈ items, Meets step f enc x) → items.length < n →
      repeatUpTo step n s ⟨items.flatMap enc, some 0⟩
        = (items.foldlM f s).map fun t => (t, ⟨[], some 0⟩)
  | _, 0, _, _, hn => absurd hn (Nat.not_lt_zero _)
  | [], n + 1, s, _, _ => by
    have hnone : step s ⟨[], some 0⟩ = .ok (none, ⟨[], some 0⟩) := hend s
    show (step s ⟨[], some 0⟩ >>= _) = _
    rw [hnone]
    rfl
  | x :: items, n + 1, s, hitems, hn => by
    obtain ⟨⟨-, hx⟩, hitems⟩ := List.forall_mem_cons.mp hitems
    rw [List.foldlM_cons, List.flatMap_cons]
    show (step s ⟨enc x ++ items.flatMap enc, some 0⟩ >>= _) = _
    rw [hx]
    cases f s x with
    | error e => rfl
    | ok t => exact repeatUpTo_eq_foldlM hend hitems (Nat.lt_of_succ_lt_succ hn)

/-- A repetition over written items is the fold of its steps over the items. -/
theorem readAll_repeated (hend : ∀ s, TakesAll (step s) [] none) {items : List β}
    (hitems : ∀ x ∈ items, Meets step f enc x) (s : σ) :
    (⟨items.flatMap enc, some 0⟩ : Input).readAll (repeated step s) = items.foldlM f s := by
  have hcount := length_le_flatMap fun x hx => (hitems x hx).1
  have hrun : repeated step s ⟨items.flatMap enc, some 0⟩
      = (items.foldlM f s).map fun t => (t, ⟨[], some 0⟩) :=
    repeatUpTo_eq_foldlM (n := (items.flatMap enc).length + 1) hend hitems (by omega)
  rw [Input.readAll, hrun]
  cases items.foldlM f s with
  | error e => rfl
  | ok t => rfl

end

section

variable {item : Reader (Option β)} {enc : β → Octets}

theorem takesAll_manyUpTo (hend : TakesAll item [] none) :
    ∀ {items : List β} {n : Nat}, (∀ x ∈ items, Takes item (enc x) (some x)) →
      items.length < n → TakesAll (manyUpTo item n) (items.flatMap enc) items
  | _, 0, _, hn => absurd hn (Nat.not_lt_zero _)
  | [], n + 1, _, _ => hend.bind rfl
  | x :: items, n + 1, hitems, hn => by
    obtain ⟨hx, hitems⟩ := List.forall_mem_cons.mp hitems
    have hrest := takesAll_manyUpTo hend hitems (Nat.lt_of_succ_lt_succ hn)
    rw [List.flatMap_cons]
    exact hx.bind_all (hrest.bind rfl)

/-- Written items are read up to the last one. -/
theorem takesAll_many (hend : TakesAll item [] none) {items : List β}
    (hne : ∀ x ∈ items, enc x ≠ []) (hitems : ∀ x ∈ items, Takes item (enc x) (some x)) :
    TakesAll (many item) (items.flatMap enc) items := by
  have hcount := length_le_flatMap hne
  exact takesAll_manyUpTo (n := (items.flatMap enc).length + 1) hend hitems (by omega)

end

theorem length_sequenceValue_le_of_mem {f : α → Octets} {a : α} {items : List α} (h : a ∈ items) :
    (sequenceValue (f a)).length ≤ (items.flatMap fun a => sequenceValue (f a)).length :=
  @length_le_flatMap_of_mem _ (fun a => sequenceValue (f a)) _ _ h

/-- Sequences of the same kind one after the other are read up to the last one. -/
theorem takesAll_sequences {r : Reader α} {content : α → Octets} {items : List α}
    (hlen : (items.flatMap fun a => sequenceValue (content a)).length < lengthBound)
    (hitems : ∀ a ∈ items, (content a).length < lengthBound → TakesAll r (content a) a) :
    TakesAll (many (inSequence? r)) (items.flatMap fun a => sequenceValue (content a)) items := by
  have hend : TakesAll (inSequence? r) [] none := rfl
  refine takesAll_many hend (fun a _ => sequenceValue_ne_nil _) fun a ha => ?_
  have hvalue := length_sequenceValue_le_of_mem (f := content) ha
  have hcontent : (content a).length ≤ (sequenceValue (content a)).length :=
    length_le_length_value _ _
  exact takes_inSequence? (hitems a ha (by omega)) (by omega)

end ResourcePki.Der

import ResourcePki.Proofs.Der.Reads

/-!
Values that are all there, and what may follow them.

The header of a value can announce more octets than there are, but whoever has understood the
content of a value has seen all of it. So a reader that understands every value that it takes leaves
alone what is missing of its input. It is built of parts that do so, and reading what a value is
made of is such a part if it is used up by such a reader.

Data that has been decoded as one value begins with it. Nobody looks at what follows, so it may be
anything.
-/

namespace ResourcePki.Der

variable {α β σ : Type}

/-! ### Readers that leave alone what is missing -/

/-- A reader only takes what is there. -/
abbrev Whole (r : Reader α) : Prop :=
  Reads r fun _ _ => True

namespace Whole

variable {r : Reader α} {f : α → Reader β}

theorem bind (hr : Whole r) (hf : ∀ a, Whole (f a)) : Whole (r >>= f) :=
  (Reads.bind hr hf).weaken fun _ _ _ => trivial

/-- The next value, if its content is understood. -/
theorem elementOf_lift {tag : Tag} {g : Element → Except DecodeError α}
    (hg : ∀ e a, g e = .ok a → e.IsThere) : Whole (elementOf tag >>= fun e => liftM (g e)) :=
  reads_elementOf_bind fun e _ => Reads.lift fun a ha => ⟨hg e a ha, fun _ _ => trivial⟩

theorem elementOf?_lift {tag : Tag} {g : Element → Except DecodeError α}
    (hg : ∀ e a, g e = .ok a → e.IsThere) :
    Whole (elementOf? tag >>= fun o => match o with
      | some e => liftM (g e) >>= fun a => Pure.pure (some a)
      | none => Pure.pure none) :=
  reads_elementOf?_bind (Reads.pure trivial) fun e _ => Reads.lift_bind fun a ha =>
    Reads.pure ⟨hg e a ha, fun _ _ => trivial⟩

theorem constructed {tag : Tag} (hr : Whole r) : Whole (Der.constructed tag r) :=
  elementOf_lift fun _ _ h => (Element.isThere_of_inside hr h).1

theorem constructed? {tag : Tag} (hr : Whole r) : Whole (Der.constructed? tag r) :=
  elementOf?_lift fun _ _ h => (Element.isThere_of_inside hr h).1

theorem inSequence (hr : Whole r) : Whole (Der.inSequence r) :=
  hr.constructed

theorem inSequence? (hr : Whole r) : Whole (Der.inSequence? r) :=
  hr.constructed?

theorem repeated {step : σ → Reader (Option σ)} (hstep : ∀ s, Whole (step s)) (s : σ) :
    Whole (Der.repeated step s) :=
  reads_repeated (R := fun _ _ _ => True) (fun _ => trivial) (fun _ _ => trivial) hstep s

theorem many {item : Reader (Option α)} (hitem : Whole item) : Whole (many item) := by
  have hupTo : ∀ n, Whole (manyUpTo item n) := by
    intro n
    induction n with
    | zero => exact Reads.pure trivial
    | succ n ih =>
      refine hitem.bind fun o => ?_
      cases o with
      | none => exact Reads.pure trivial
      | some a => exact ih.bind fun as => Reads.pure trivial
  exact fun s => hupTo (s.octets.length + 1) s

end Whole

theorem whole_captureAll : Whole captureAll := by
  intro s v t h
  unfold captureAll at h
  split at h
  · simp only [Except.ok.injEq, Prod.mk.injEq] at h
    obtain ⟨-, rfl⟩ := h
    exact ⟨s.octets, (List.append_nil _).symm, rfl, trivial⟩
  · simp at h

theorem whole_objectId : Whole objectId :=
  Whole.elementOf_lift fun _ _ h => Element.isThere_of_primitive_bind h

theorem whole_objectId? : Whole objectId? :=
  Whole.elementOf?_lift fun _ _ h => Element.isThere_of_primitive_bind h

theorem whole_boolean? : Whole boolean? :=
  Whole.elementOf?_lift fun _ _ h => Element.isThere_of_primitive_bind h

/-! ### What follows decoded data -/

theorem Input.split?_append {bs : Octets} {n : Nat} {content after : Input}
    (h : Input.split? ⟨bs, none⟩ n = some (content, after)) (hthere : content.missing = some 0)
    (rest : Octets) :
    Input.split? ⟨bs ++ rest, none⟩ n = some (content, ⟨after.octets ++ rest, none⟩) := by
  obtain ⟨rfl, hbs, -⟩ := split?_there h hthere
  obtain ⟨octets, missing⟩ := content
  obtain rfl : missing = some 0 := hthere
  obtain rfl : bs = octets ++ after.octets := hbs
  simp [Input.split?]

/-- A value that is there is found in front of anything. -/
theorem element?_append {bs : Octets} {t : Input} {e : Element}
    (h : element? (.whole bs) = .ok (some e, t)) (hthere : e.IsThere) (rest : Octets) :
    element? (.whole (bs ++ rest)) = .ok (some e, ⟨t.octets ++ rest, none⟩) := by
  unfold element? at h
  split at h
  · simp at h
  split at h
  · simp at h
  · simp at h
  rename_i tag c n bs' hheader
  split at h
  · simp at h
  rename_i htag
  split at h
  · simp at h
  rename_i content after hsplit
  simp only [Except.ok.injEq, Prod.mk.injEq, Option.some.injEq] at h
  obtain ⟨rfl, rfl⟩ := h
  -- the header does not depend on what follows it, nor does the content
  obtain ⟨hd, hhd, -, hframe⟩ := readHeader_frame hheader
  have hheader' : readHeader (bs ++ rest) = some (⟨tag, c, .definite n⟩, bs' ++ rest) := by
    rw [show bs = hd ++ bs' from hhd, List.append_assoc, hframe]
  have hsplit' := Input.split?_append hsplit hthere rest
  unfold element?
  rw [if_neg (by simp [Input.isDone, Input.whole])]
  simp only [Input.whole, hheader', if_neg htag, hsplit']

theorem elementOf_append {tag : Tag} {bs : Octets} {t : Input} {e : Element}
    (h : elementOf tag (.whole bs) = .ok (e, t)) (hthere : e.IsThere) (rest : Octets) :
    elementOf tag (.whole (bs ++ rest)) = .ok (e, ⟨t.octets ++ rest, none⟩) := by
  obtain ⟨o, u, ho, hfound⟩ := run_bind_eq_ok.mp h
  cases o with
  | none => exact absurd hfound run_throw_ne_ok
  | some e' =>
    rw [run_pure_eq_ok, Prod.mk.injEq] at hfound
    obtain ⟨rfl, rfl⟩ := hfound
    refine run_bind_eq_ok.mpr ⟨some e, _, ?_, rfl⟩
    unfold elementOf? at ho
    split at ho
    · simp at ho
    rename_i hbs
    split at ho
    · simp at ho
    rename_i found c bs' htag
    split at ho
    · rename_i hfound
      obtain ⟨hd, hhd, -, hframe⟩ := readTag_frame htag
      have htag' : readTag (bs ++ rest) = some (found, c, bs' ++ rest) := by
        rw [show bs = hd ++ bs' from hhd, List.append_assoc, hframe]
      have hnil : ¬(bs ++ rest).isEmpty := by
        rw [List.isEmpty_iff, List.append_eq_nil_iff]
        exact fun hboth => hbs (List.isEmpty_iff.mpr hboth.1)
      unfold elementOf?
      simp only [Input.whole, if_neg hnil, htag', if_pos hfound]
      exact element?_append ho hthere rest
    · simp at ho

/-- What data decodes to, it decodes to in front of anything. -/
def Overlooks (r : Reader α) : Prop :=
  ∀ bs a rest, decode r bs = .ok a → decode r (bs ++ rest) = .ok a

theorem overlooks_elementOf {tag : Tag} {g : Element → Except DecodeError α}
    (hg : ∀ e a, g e = .ok a → e.IsThere) :
    Overlooks (elementOf tag >>= fun e => liftM (g e)) := by
  intro bs a rest h
  obtain ⟨t, ht⟩ := of_decode h
  obtain ⟨e, u, he, ha⟩ := run_bind_eq_ok.mp ht
  obtain ⟨a', ha', hu⟩ := run_lift_eq_ok.mp ha
  rw [Prod.mk.injEq] at hu
  obtain ⟨rfl, rfl⟩ := hu
  have hrun : (elementOf tag >>= fun e => (liftM (g e) : Reader α)) (.whole (bs ++ rest))
      = .ok (a, ⟨t.octets ++ rest, none⟩) :=
    run_bind_eq_ok.mpr
      ⟨e, _, elementOf_append he (hg e a ha') rest, run_lift_eq_ok.mpr ⟨a, ha', rfl⟩⟩
  rw [decode, hrun]

theorem overlooks_inSequence {r : Reader α} (hr : Whole r) : Overlooks (inSequence r) :=
  overlooks_elementOf fun _ _ h => (Element.isThere_of_inside hr h).1

end ResourcePki.Der

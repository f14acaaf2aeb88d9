import ResourcePki.Der.Primitive
import ResourcePki.Proofs.Reading

/-!
What readers of encoded values give, whatever they are run on.

A reader of the content of a value gives what the reader inside gives. A repetition keeps every
property of its state that a single step keeps, which is how an invariant of a builder becomes a
fact about everything that is decoded.
-/

namespace ResourcePki.Der

variable {α σ : Type} {P : α → Prop} {Q : σ → Prop}

theorem Input.of_readAll {s : Input} {r : Reader α} {a : α} (h : s.readAll r = .ok a) :
    ∃ t, r s = .ok (a, t) ∧ t.isDone = true := by
  unfold Input.readAll at h
  split at h
  · simp at h
  · rename_i b t hb
    split at h
    · rename_i hdone
      rw [Except.ok.injEq] at h
      exact ⟨t, h ▸ hb, hdone⟩
    · simp at h

theorem Element.of_inside {e : Element} {r : Reader α} {a : α} (h : e.inside r = .ok a) :
    e.constructed = true ∧ ∃ t, r e.content = .ok (a, t) ∧ t.isDone = true := by
  unfold Element.inside at h
  split at h
  · rename_i hc
    exact ⟨hc, Input.of_readAll h⟩
  · simp at h

theorem ensures_inside {e : Element} {r : Reader α} (hr : Ensures r P) :
    Ensures (liftM (e.inside r) : Reader α) P := by
  refine Ensures.lift fun a ha => ?_
  obtain ⟨-, t, ht, -⟩ := Element.of_inside ha
  exact hr _ _ _ ht

theorem ensures_constructed {tag : Tag} {r : Reader α} (hr : Ensures r P) :
    Ensures (constructed tag r) P :=
  Ensures.bind_any fun _ => ensures_inside hr

theorem ensures_inSequence {r : Reader α} (hr : Ensures r P) : Ensures (inSequence r) P :=
  ensures_constructed hr

theorem ensures_constructed? {tag : Tag} {r : Reader α} (hr : Ensures r P) :
    Ensures (constructed? tag r) fun o => ∀ a ∈ o, P a := by
  refine Ensures.bind_any fun o => ?_
  cases o with
  | none => exact Ensures.pure (by simp)
  | some e => exact (ensures_inside hr).bind fun a ha => Ensures.pure (by simpa using ha)

theorem ensures_inSequence? {r : Reader α} (hr : Ensures r P) :
    Ensures (inSequence? r) fun o => ∀ a ∈ o, P a :=
  ensures_constructed? hr

theorem ensures_repeatUpTo {step : σ → Reader (Option σ)}
    (hstep : ∀ s, Q s → Ensures (step s) fun o => ∀ t ∈ o, Q t) :
    ∀ (n : Nat) (s : σ), Q s → Ensures (repeatUpTo step n s) Q
  | 0, _, hs => Ensures.pure hs
  | n + 1, s, hs => by
    refine (hstep s hs).bind fun o ho => ?_
    cases o with
    | none => exact Ensures.pure hs
    | some t => exact ensures_repeatUpTo hstep n t (ho t rfl)

/-- What a step keeps, a repetition keeps. -/
theorem ensures_repeated {step : σ → Reader (Option σ)} {s : σ} (hs : Q s)
    (hstep : ∀ s, Q s → Ensures (step s) fun o => ∀ t ∈ o, Q t) : Ensures (repeated step s) Q :=
  Ensures.bind_any fun _ => ensures_repeatUpTo hstep _ s hs

theorem ensures_manyUpTo {item : Reader (Option α)} (hitem : Ensures item fun o => ∀ a ∈ o, P a) :
    ∀ n, Ensures (manyUpTo item n) fun as => ∀ a ∈ as, P a
  | 0 => Ensures.pure (by simp)
  | n + 1 => by
    refine hitem.bind fun o ho => ?_
    cases o with
    | none => exact Ensures.pure (by simp)
    | some a =>
      exact (ensures_manyUpTo hitem n).bind fun as has =>
        Ensures.pure (List.forall_mem_cons.mpr ⟨ho a rfl, has⟩)

/-- What holds of every item holds of all that are read. -/
theorem ensures_many {item : Reader (Option α)} (hitem : Ensures item fun o => ∀ a ∈ o, P a) :
    Ensures (many item) fun as => ∀ a ∈ as, P a :=
  Ensures.bind_any fun _ => ensures_manyUpTo hitem _

theorem of_decode {r : Reader α} {bs : Octets} {a : α} (h : decode r bs = .ok a) :
    ∃ t, r (Input.whole bs) = .ok (a, t) := by
  unfold decode at h
  split at h
  · rename_i b t hb
    rw [Except.ok.injEq] at h
    exact ⟨t, h ▸ hb⟩
  · simp at h

/-- What a reader gives, decoding gives. -/
theorem property_of_decode {r : Reader α} (hr : Ensures r P) {bs : Octets} {a : α}
    (h : decode r bs = .ok a) : P a := by
  obtain ⟨t, ht⟩ := of_decode h
  exact hr _ _ _ ht

end ResourcePki.Der

import ResourcePki.Proofs.Der.Ensures

/-!
Two readers side by side.

One reader is within another one if whatever it gives the other one gives as well: from the same
input something related to it, with the same rest. Where both are built alike this is proved part
by part, and a part that both have in common needs no look at what it does. So a check that only one
of them makes has to be looked at where it is made, and nowhere else.
-/

namespace ResourcePki

variable {σ ε α α' β β' : Type}

/-- Whatever the first reader gives, the second one gives from the same input something related to
    it, and leaves the same. -/
def Within (R : α → α' → Prop) (r : StateT σ (Except ε) α) (r' : StateT σ (Except ε) α') : Prop :=
  ∀ s a t, r s = .ok (a, t) → ∃ a', r' s = .ok (a', t) ∧ R a a'

namespace Within

variable {R : α → α' → Prop} {S : β → β' → Prop} {r : StateT σ (Except ε) α}
  {r' : StateT σ (Except ε) α'}

theorem refl (r : StateT σ (Except ε) α) : Within Eq r r :=
  fun _ a _ h => ⟨a, h, rfl⟩

theorem pure {a : α} {a' : α'} (h : R a a') :
    Within R (Pure.pure a : StateT σ (Except ε) α) (Pure.pure a') := by
  intro s b t hb
  rw [run_pure_eq_ok, Prod.mk.injEq] at hb
  obtain ⟨rfl, rfl⟩ := hb
  exact ⟨a', rfl, h⟩

theorem throw {e : ε} : Within R (MonadExcept.throw e : StateT σ (Except ε) α) r' :=
  fun _ _ _ h => absurd h run_throw_ne_ok

/-- A block that has thrown an error does not go on. -/
theorem throw_bind {e : ε} {f : β → StateT σ (Except ε) α} :
    Within R ((MonadExcept.throw e : StateT σ (Except ε) β) >>= f) r' := by
  intro s a t h
  obtain ⟨b, u, hb, -⟩ := run_bind_eq_ok.mp h
  exact absurd hb run_throw_ne_ok

theorem bind {f : α → StateT σ (Except ε) β} {f' : α' → StateT σ (Except ε) β'}
    (hr : Within R r r') (hf : ∀ a a', R a a' → Within S (f a) (f' a')) :
    Within S (r >>= f) (r' >>= f') := by
  intro s b t h
  obtain ⟨a, u, ha, hb⟩ := run_bind_eq_ok.mp h
  obtain ⟨a', ha', haa'⟩ := hr s a u ha
  obtain ⟨b', hb', hbb'⟩ := hf a a' haa' u b t hb
  exact ⟨b', run_bind_eq_ok.mpr ⟨a', u, ha', hb'⟩, hbb'⟩

/-- Both readers begin in the same way. -/
theorem bind_same {f : α → StateT σ (Except ε) β} {f' : α → StateT σ (Except ε) β'}
    (hf : ∀ a, Within S (f a) (f' a)) : Within S (r >>= f) (r >>= f') :=
  (refl r).bind fun a _ h => h ▸ hf a

/-- Both readers go by the same test. -/
theorem ite {c : Prop} [Decidable c] {q : StateT σ (Except ε) α} {q' : StateT σ (Except ε) α'}
    (ht : c → Within R r r') (hf : ¬c → Within R q q') :
    Within R (if c then r else q) (if c then r' else q') := by
  by_cases h : c
  · rw [if_pos h, if_pos h]
    exact ht h
  · rw [if_neg h, if_neg h]
    exact hf h

/-- Whatever the second reader refuses, the first one refuses as well. -/
theorem throw_ite {c c' : Prop} [Decidable c] [Decidable c'] {e : ε}
    {f : β → StateT σ (Except ε) α} {q : StateT σ (Except ε) α'} (hc : c' → c)
    (h : Within R r r') :
    Within R (if c then (MonadExcept.throw e : StateT σ (Except ε) β) >>= f else r)
      (if c' then q else r') := by
  by_cases hfirst : c
  · rw [if_pos hfirst]
    exact throw_bind
  · rw [if_neg hfirst, if_neg fun hsecond => hfirst (hc hsecond)]
    exact h

theorem lift {x : Except ε α} {x' : Except ε α'}
    (h : ∀ a, x = .ok a → ∃ a', x' = .ok a' ∧ R a a') :
    Within R (liftM x : StateT σ (Except ε) α) (liftM x') := by
  intro s a t ha
  obtain ⟨b, hb, hab⟩ := run_lift_eq_ok.mp ha
  rw [Prod.mk.injEq] at hab
  obtain ⟨rfl, rfl⟩ := hab
  obtain ⟨a', ha', hR⟩ := h a hb
  exact ⟨a', run_lift_eq_ok.mpr ⟨a', ha', rfl⟩, hR⟩

end Within

/-! ### Readers of encoded values -/

namespace Der

variable {R : α → α' → Prop} {S : β → β' → Prop} {r : Reader α} {r' : Reader α'}

theorem within_inside (hr : Within R r r') (e : Element) :
    Within R (liftM (e.inside r) : Reader α) (liftM (e.inside r') : Reader α') := by
  refine Within.lift fun a ha => ?_
  obtain ⟨hc, t, ht, hdone⟩ := Element.of_inside ha
  obtain ⟨a', ha', hR⟩ := hr _ _ _ ht
  refine ⟨a', ?_, hR⟩
  rw [Element.inside, if_pos hc, Input.readAll, ha']
  exact if_pos hdone

theorem within_constructed {tag : Tag} (hr : Within R r r') :
    Within R (constructed tag r) (constructed tag r') :=
  Within.bind_same fun e => within_inside hr e

theorem within_inSequence (hr : Within R r r') : Within R (inSequence r) (inSequence r') :=
  within_constructed hr

theorem within_constructed? {tag : Tag} (hr : Within R r r') :
    Within (Option.Rel R) (constructed? tag r) (constructed? tag r') := by
  refine Within.bind_same fun o => ?_
  cases o with
  | none => exact Within.pure .none
  | some e => exact (within_inside hr e).bind fun a a' h => Within.pure (.some h)

theorem within_inSequence? (hr : Within R r r') :
    Within (Option.Rel R) (inSequence? r) (inSequence? r') :=
  within_constructed? hr

theorem within_repeatUpTo {step : β → Reader (Option β)} {step' : β' → Reader (Option β')}
    (hstep : ∀ s s', S s s' → Within (Option.Rel S) (step s) (step' s')) (n : Nat) :
    ∀ s s', S s s' → Within S (repeatUpTo step n s) (repeatUpTo step' n s') := by
  induction n with
  | zero => exact fun s s' h => Within.pure h
  | succ n ih =>
    intro s s' h
    refine (hstep s s' h).bind fun o o' ho => ?_
    cases ho with
    | none => exact Within.pure h
    | some h => exact ih _ _ h

/-- Repetitions take as many steps side by side, since they see the same input. -/
theorem within_repeated {step : β → Reader (Option β)} {step' : β' → Reader (Option β')}
    (hstep : ∀ s s', S s s' → Within (Option.Rel S) (step s) (step' s')) {s : β} {s' : β'}
    (h : S s s') : Within S (repeated step s) (repeated step' s') :=
  Within.bind_same fun _ => within_repeatUpTo hstep _ s s' h

/-- What data decodes to by one reader, it decodes to by the other one. -/
theorem decode_of_within (hr : Within R r r') {bs : Octets} {a : α} (h : decode r bs = .ok a) :
    ∃ a', decode r' bs = .ok a' ∧ R a a' := by
  obtain ⟨t, ht⟩ := of_decode h
  obtain ⟨a', ha', hR⟩ := hr _ _ _ ht
  exact ⟨a', by rw [decode, ha'], hR⟩

end Der

end ResourcePki

/-!
Readers as functions from an input to a value and the rest of the input, or to an error.

Every reader of the library is built by `do` from smaller ones, so a successful run is a chain of
successful runs. The first lemmas take such a chain apart, for readers and for computations that can
only fail. `Ensures r P` then says that whatever `r` gives has the property `P`, whatever it is run
on; it is proved along the structure of `r`, one step for each line of the `do` block.
-/

namespace ResourcePki

variable {σ ε α β : Type}

/-! ### Computations that can fail -/

/-- A chain gives a value iff both of its parts do. -/
theorem bind_eq_ok {x : Except ε α} {f : α → Except ε β} {b : β} :
    (x >>= f) = .ok b ↔ ∃ a, x = .ok a ∧ f a = .ok b := by
  cases x with
  | error e => simp [bind, Except.bind]
  | ok a => simp [bind, Except.bind]

theorem map_eq_ok {x : Except ε α} {f : α → β} {b : β} :
    x.map f = .ok b ↔ ∃ a, x = .ok a ∧ f a = b := by
  cases x with
  | error e => simp [Except.map]
  | ok a => simp [Except.map]

theorem toOption_eq_some {x : Except ε α} {a : α} : x.toOption = some a ↔ x = .ok a := by
  cases x with
  | error e => simp [Except.toOption]
  | ok b => simp [Except.toOption]

theorem toOption_eq_none {x : Except ε α} : x.toOption = none ↔ ∀ a, x ≠ .ok a := by
  cases x with
  | error e => simp [Except.toOption]
  | ok b => simp [Except.toOption]

/-- What an error is called does not matter to what is given. -/
theorem mapError_eq_ok {ε' : Type} {x : Except ε α} {f : ε → ε'} {a : α} :
    x.mapError f = .ok a ↔ x = .ok a := by
  cases x with
  | error e =>
    show Except.error (f e) = .ok a ↔ Except.error e = .ok a
    simp
  | ok b =>
    show Except.ok b = .ok a ↔ Except.ok b = .ok a
    rw [Except.ok.injEq, Except.ok.injEq]

@[simp] theorem pure_eq_ok {a b : α} : (pure a : Except ε α) = .ok b ↔ a = b := by
  simp [pure, Except.pure]

@[simp] theorem throw_ne_ok {e : ε} {a : α} : (throw e : Except ε α) ≠ .ok a := by
  simp [throw, throwThe, MonadExceptOf.throw]

/-- A condition that must not hold stands in front of the rest. -/
theorem ite_error_eq_ok {c : Prop} [Decidable c] {e : ε} {x : Except ε α} {a : α} :
    (if c then .error e else x) = .ok a ↔ ¬c ∧ x = .ok a := by
  split <;> simp [*]

/-- A fold that succeeds keeps what each of its steps keeps of the state and the part seen. -/
theorem foldlM_invariant {step : β → α → Except ε β} {Inv : List α → β → Prop}
    (hstep : ∀ seen b a b', Inv seen b → step b a = .ok b' → Inv (seen ++ [a]) b') :
    ∀ {l seen : List α} {b b' : β}, Inv seen b → l.foldlM step b = .ok b' → Inv (seen ++ l) b'
  | [], seen, b, b', hb, h => by
    rw [List.foldlM_nil, pure_eq_ok] at h
    rw [List.append_nil]
    exact h ▸ hb
  | a :: l, seen, b, b', hb, h => by
    rw [List.foldlM_cons, bind_eq_ok] at h
    obtain ⟨c, hc, hl⟩ := h
    have hrec := foldlM_invariant hstep (hstep seen b a c hb hc) hl
    simpa [List.append_assoc] using hrec

/-- A fold whose steps do all that the steps of another one do gives all that the other one gives. -/
theorem foldlM_of_imp {step step' : β → α → Except ε β}
    (hstep : ∀ b a b', step b a = .ok b' → step' b a = .ok b') :
    ∀ {l : List α} {b b' : β}, l.foldlM step b = .ok b' → l.foldlM step' b = .ok b'
  | [], _, _, h => h
  | a :: l, b, b', h => by
    rw [List.foldlM_cons, bind_eq_ok] at h ⊢
    obtain ⟨c, hc, hl⟩ := h
    exact ⟨c, hstep b a c hc, foldlM_of_imp hstep hl⟩

/-- A fold gives the same for a list in any order if its steps may be exchanged. They only have to
    be exchangeable for items that are related, as all items of the list are. -/
theorem foldlM_of_perm {step : β → α → Except ε β} {R : α → α → Prop}
    (hsymm : ∀ {a a'}, R a a' → R a' a)
    (hstep : ∀ {a a' b c d}, R a a' → step b a = .ok c → step c a' = .ok d →
      ∃ c', step b a' = .ok c' ∧ step c' a = .ok d)
    {l l' : List α} (hl : l.Pairwise R) (h : l.Perm l') :
    ∀ {b d : β}, l.foldlM step b = .ok d → l'.foldlM step b = .ok d := by
  induction h with
  | nil => exact fun hd => hd
  | cons a _ ih =>
    intro b d hd
    rw [List.foldlM_cons, bind_eq_ok] at hd ⊢
    obtain ⟨c, hc, hd⟩ := hd
    exact ⟨c, hc, ih (List.pairwise_cons.mp hl).2 hd⟩
  | swap a' a l =>
    intro b d hd
    simp only [List.foldlM_cons, bind_eq_ok] at hd ⊢
    obtain ⟨c, hc, e, he, hd⟩ := hd
    have hrel := (List.pairwise_cons.mp hl).1 a' List.mem_cons_self
    obtain ⟨c', hc', he'⟩ := hstep hrel hc he
    exact ⟨c', hc', e, he', hd⟩
  | trans h _ ih ih' =>
    intro b d hd
    exact ih' (h.pairwise hl hsymm) (ih hl hd)

/-! ### Readers -/

/-- A chain of readers gives a value iff the first part gives one and the second part goes on from
    there. -/
theorem run_bind_eq_ok {r : StateT σ (Except ε) α} {f : α → StateT σ (Except ε) β} {s : σ}
    {x : β × σ} : (r >>= f) s = .ok x ↔ ∃ a t, r s = .ok (a, t) ∧ f a t = .ok x := by
  show ((r s) >>= fun y => f y.1 y.2) = .ok x ↔ _
  rw [bind_eq_ok, Prod.exists]

theorem run_pure_eq_ok {a : α} {s : σ} {x : α × σ} :
    (pure a : StateT σ (Except ε) α) s = .ok x ↔ x = (a, s) := by
  show Except.ok (a, s) = .ok x ↔ _
  rw [Except.ok.injEq, eq_comm]

theorem run_throw_ne_ok {e : ε} {s : σ} {x : α × σ} :
    (throw e : StateT σ (Except ε) α) s ≠ .ok x := by
  show Except.error e ≠ .ok x
  simp

/-- A computation that can fail leaves the input of a reader alone. -/
theorem run_lift_eq_ok {x : Except ε α} {s : σ} {y : α × σ} :
    (liftM x : StateT σ (Except ε) α) s = .ok y ↔ ∃ a, x = .ok a ∧ y = (a, s) := by
  show (x >>= fun a => Except.ok (a, s)) = .ok y ↔ _
  rw [bind_eq_ok]
  simp [eq_comm]

/-- Whatever a reader gives has a property. -/
def Ensures (r : StateT σ (Except ε) α) (P : α → Prop) : Prop :=
  ∀ s a t, r s = .ok (a, t) → P a

namespace Ensures

variable {r : StateT σ (Except ε) α} {f : α → StateT σ (Except ε) β} {P P' : α → Prop}
  {Q : β → Prop}

theorem pure {a : α} (ha : P a) : Ensures (Pure.pure a : StateT σ (Except ε) α) P := by
  intro s b t h
  rw [run_pure_eq_ok, Prod.mk.injEq] at h
  exact h.1 ▸ ha

theorem throw {e : ε} : Ensures (MonadExcept.throw e : StateT σ (Except ε) α) P :=
  fun _ _ _ h => absurd h run_throw_ne_ok

theorem bind (hr : Ensures r P) (hf : ∀ a, P a → Ensures (f a) Q) : Ensures (r >>= f) Q := by
  intro s b t h
  obtain ⟨a, u, ha, hb⟩ := run_bind_eq_ok.mp h
  exact hf a (hr s a u ha) u b t hb

/-- Nothing needs to be known of the first part. -/
theorem bind_any (hf : ∀ a, Ensures (f a) Q) : Ensures (r >>= f) Q :=
  bind (P := fun _ => True) (fun _ _ _ _ => trivial) fun a _ => hf a

/-- A block that has thrown an error does not go on. -/
theorem throw_bind {e : ε} : Ensures ((MonadExcept.throw e : StateT σ (Except ε) α) >>= f) Q :=
  bind (P := fun _ => False) throw fun _ h => h.elim

theorem ite {c : Prop} [Decidable c] {r' : StateT σ (Except ε) α} (ht : c → Ensures r P)
    (hf : ¬c → Ensures r' P) : Ensures (if c then r else r') P := by
  split
  · exact ht ‹_›
  · exact hf ‹_›

theorem lift {x : Except ε α} (hx : ∀ a, x = .ok a → P a) :
    Ensures (liftM x : StateT σ (Except ε) α) P := by
  intro s b t h
  obtain ⟨a, ha, hab⟩ := run_lift_eq_ok.mp h
  rw [Prod.mk.injEq] at hab
  exact hab.1 ▸ hx a ha

theorem weaken (hr : Ensures r P) (h : ∀ a, P a → P' a) : Ensures r P' :=
  fun s a t ha => h a (hr s a t ha)

end Ensures

end ResourcePki

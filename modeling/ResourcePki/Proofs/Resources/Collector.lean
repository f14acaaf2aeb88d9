import Mathlib.Data.List.Induction
import ResourcePki.Proofs.Reading
import ResourcePki.Proofs.Resources.Claimed

/-!
Builders that take one entry after the other, and what comparing every pair of entries would do.

The reference knows nothing of claims. Entries fall into classes, an entry may inherit its class, and
any other entry holds some numbers. A new entry is compared with each one that is held: two entries
of a class are compatible if neither inherits and they hold no number in common. A builder instead
keeps the claims of each class and asks them. The invariant says that these are the claims of the
entries that are held, in order. A builder that keeps it gives the same answers as the reference,
whatever has been offered to it before and whether that was taken or not (`comparesAll`).
-/

namespace ResourcePki

/-- How entries are compared: by their classes, and by the numbers they hold unless they inherit. -/
structure EntryKind (α : Type) where
  Class : Type
  [decEq : DecidableEq Class]
  classOf : α → Class
  Inherits : α → Prop
  Number : Type
  Holds : α → Number → Prop

attribute [instance] EntryKind.decEq

/-- Why an entry is refused. -/
inductive EntryRefusal where
  | tooMany
  | inherit
  | overlap
  deriving DecidableEq

/-- The reason for a refusal that the claims give. -/
def Conflict.refusal : Conflict → EntryRefusal
  | .inherit => .inherit
  | .overlap => .overlap

namespace EntryKind

variable {α : Type} (K : EntryKind α)

/-- Two entries can stand beside each other: they are of different classes, or neither inherits and
    no number is held by both. -/
def Compatible (x y : α) : Prop :=
  K.classOf x = K.classOf y → ¬K.Inherits x ∧ ¬K.Inherits y ∧ ∀ n, ¬(K.Holds x n ∧ K.Holds y n)

/-- An entry inherits a class of which another one is held, or the other way round. -/
def Clashes (held : List α) (e : α) : Prop :=
  ∃ x ∈ held, K.classOf x = K.classOf e ∧ (K.Inherits x ∨ K.Inherits e)

/-- An entry is taken if there is room and it is compatible with every entry that is held. -/
def Takes (limit : Nat) (held : List α) (e : α) : Prop :=
  held.length < limit ∧ ∀ x ∈ held, K.Compatible x e

/-- The reasons to refuse an entry. They exclude each other, since the first one counts. -/
def Refuses (limit : Nat) (held : List α) (e : α) : EntryRefusal → Prop
  | .tooMany => limit ≤ held.length
  | .inherit => held.length < limit ∧ K.Clashes held e
  | .overlap => held.length < limit ∧ ¬K.Clashes held e ∧ ∃ x ∈ held, ¬K.Compatible x e

theorem Compatible.symm {x y : α} (h : K.Compatible x y) : K.Compatible y x := fun hclass =>
  have ⟨hx, hy, hapart⟩ := h hclass.symm
  ⟨hy, hx, fun n hn => hapart n hn.symm⟩

end EntryKind

/-- A builder as it is seen from outside. -/
structure Collector (α ε : Type) where
  State : Type
  /-- The builder with a limit and without entries. -/
  new : Nat → State
  /-- The builder after an entry has been offered, with the answer. -/
  push : State → α → State × Except ε Unit
  entries : State → List α
  /-- What is reported of a refusal. -/
  error : EntryRefusal → ε

namespace Collector

variable {α ε : Type} (B : Collector α ε)

/-- The builder after an entry has been offered, whether it has been taken or not. -/
def offer (s : B.State) (e : α) : B.State :=
  (B.push s e).1

/-- A new builder after some entries have been offered. -/
def after (limit : Nat) (es : List α) : B.State :=
  es.foldl B.offer (B.new limit)

/-- The answers to some entries, one after the other: why each of them is refused, if it is. -/
def answers (s : B.State) : List α → List (Except ε Unit)
  | [] => []
  | e :: es => (B.push s e).2 :: answers (B.offer s e) es

/-- Some entries are all taken. -/
def TakesAll (limit : Nat) (es : List α) : Prop :=
  ∀ answer ∈ B.answers (B.new limit) es, answer = .ok ()

theorem after_concat (limit : Nat) (es : List α) (e : α) :
    B.after limit (es ++ [e]) = B.offer (B.after limit es) e := by
  rw [after, List.foldl_append]
  rfl

theorem answers_concat (es : List α) (e : α) : ∀ s : B.State,
    B.answers s (es ++ [e]) = B.answers s es ++ [(B.push (es.foldl B.offer s) e).2] := by
  induction es with
  | nil => exact fun s => rfl
  | cons f es ih =>
    intro s
    rw [List.cons_append, answers, ih, answers, List.cons_append, List.foldl_cons]

/-- One more entry is taken with the others if it is taken after them. -/
theorem takesAll_concat {limit : Nat} {es : List α} {e : α} : B.TakesAll limit (es ++ [e]) ↔
    B.TakesAll limit es ∧ (B.push (B.after limit es) e).2 = .ok () := by
  simp only [TakesAll, answers_concat, List.forall_mem_append, List.forall_mem_singleton]
  rfl

/-- What a builder does with an entry is what comparing it with every entry that is held gives. -/
structure Compares (K : EntryKind α) (limit : Nat) (s : B.State) (e : α) : Prop where
  taken_iff : (B.push s e).2 = .ok () ↔ K.Takes limit (B.entries s) e
  entries_eq : (B.push s e).2 = .ok () → B.entries (B.offer s e) = B.entries s ++ [e]
  refused_iff : ∀ r, (B.push s e).2 = .error r ↔
    ∃ reason, r = B.error reason ∧ K.Refuses limit (B.entries s) e reason

/-- A builder behaves as if it compared every pair of the entries that are made in some way. -/
structure ComparesAll (K : EntryKind α) (IsMade : α → Prop) : Prop where
  /-- Whatever has been offered before, taken or not. -/
  compares : ∀ limit es e, (∀ x ∈ es, IsMade x) → IsMade e → B.Compares K limit (B.after limit es) e
  /-- What has been refused leaves no trace, neither in the entries nor in any later answer. -/
  unchanged : ∀ limit es e r more, (∀ x ∈ es, IsMade x) → (∀ x ∈ more, IsMade x) →
    (B.push (B.after limit es) e).2 = .error r →
      B.entries (B.after limit (es ++ [e])) = B.entries (B.after limit es) ∧
      B.answers (B.after limit (es ++ [e])) more = B.answers (B.after limit es) more
  /-- All answers depend on nothing but the entries that are held. -/
  answers_eq : ∀ limit es es' more, (∀ x ∈ es, IsMade x) → (∀ x ∈ es', IsMade x) →
    (∀ x ∈ more, IsMade x) → B.entries (B.after limit es) = B.entries (B.after limit es') →
      B.answers (B.after limit es) more = B.answers (B.after limit es') more
  takesAll_iff : ∀ limit es, (∀ x ∈ es, IsMade x) →
    (B.TakesAll limit es ↔ es.length ≤ limit ∧ es.Pairwise K.Compatible)
  /-- In which order the entries come makes no difference. -/
  takesAll_perm : ∀ limit es es', es.Perm es' → (∀ x ∈ es, IsMade x) →
    (B.TakesAll limit es ↔ B.TakesAll limit es')

end Collector

/-- How a builder keeps the claims of its entries, class by class: there is a limit and, for every
    class, some claims. An entry makes its claim on its class if there is room, and nothing else
    changes. The numbers an entry holds are those of the range that it claims. -/
structure Bookkeeping {α ε : Type} (B : Collector α ε) (K : EntryKind α) (IsMade : α → Prop) where
  limit : B.State → Nat
  claimed : B.State → K.Class → Claimed
  span? : α → Option Span
  limit_new : ∀ n, limit (B.new n) = n
  entries_new : ∀ n, B.entries (B.new n) = []
  claimed_new : ∀ n k, claimed (B.new n) k = .empty
  push_full : ∀ s e, limit s ≤ (B.entries s).length → B.push s e = (s, .error (B.error .tooMany))
  push_error : ∀ s e conflict, (B.entries s).length < limit s →
    ((claimed s (K.classOf e)).claim (span? e)).2 = .error conflict →
      B.push s e = (s, .error (B.error conflict.refusal))
  push_ok : ∀ s e c, (B.entries s).length < limit s →
    (claimed s (K.classOf e)).claim (span? e) = (c, .ok ()) →
      ∃ s', B.push s e = (s', .ok ()) ∧ limit s' = limit s ∧ B.entries s' = B.entries s ++ [e] ∧
        claimed s' (K.classOf e) = c ∧ ∀ k, K.classOf e ≠ k → claimed s' k = claimed s k
  first_le_last : ∀ e, IsMade e → ∀ s ∈ span? e, s.first ≤ s.last
  inherits_iff : ∀ e, K.Inherits e ↔ span? e = none
  value : K.Number → Nat
  holds_iff : ∀ e n, K.Holds e n ↔ ∃ s ∈ span? e, s.first ≤ value n ∧ value n ≤ s.last
  exists_first : ∀ e, ∀ s ∈ span? e, ∃ n, value n = s.first

namespace Bookkeeping

variable {α ε : Type} {B : Collector α ε} {K : EntryKind α} {IsMade : α → Prop}
  (S : Bookkeeping B K IsMade) {limit : Nat} {s t : B.State} {e f : α} {es : List α}

/-! ### Claims and entries -/

/-- The claims that some entries make on a class. -/
def claimsOf (k : K.Class) (es : List α) : List (Option Span) :=
  (es.filter fun e => K.classOf e = k).map S.span?

theorem mem_claimsOf {k : K.Class} {y : Option Span} :
    y ∈ S.claimsOf k es ↔ ∃ x ∈ es, K.classOf x = k ∧ S.span? x = y := by
  simp [claimsOf, and_assoc]

theorem claimsOf_append (k : K.Class) :
    S.claimsOf k (es ++ [e]) = S.claimsOf k es ++ if K.classOf e = k then [S.span? e] else [] := by
  by_cases h : K.classOf e = k <;> simp [claimsOf, h]

include S in
/-- Where two ranges meet, the larger one of their first numbers is in both. -/
theorem holds_both_iff (he : IsMade e) (hf : IsMade f) {u v : Span} (hu : S.span? e = some u)
    (hv : S.span? f = some v) : (∃ n, K.Holds e n ∧ K.Holds f n) ↔ ¬u.Apart v := by
  have hule := S.first_le_last e he u hu
  have hvle := S.first_le_last f hf v hv
  simp only [S.holds_iff, hu, hv, Option.mem_some_iff, exists_eq_left', Span.Apart]
  constructor
  · rintro ⟨n, hn, hm⟩
    omega
  · intro hmeet
    rcases Nat.le_total u.first v.first with hle | hle
    · obtain ⟨n, hn⟩ := S.exists_first f v hv
      exact ⟨n, by omega⟩
    · obtain ⟨n, hn⟩ := S.exists_first e u hu
      exact ⟨n, by omega⟩

include S in
/-- Entries of a class are compatible if their claims are. -/
theorem compatible_iff (he : IsMade e) (hf : IsMade f) (hclass : K.classOf e = K.classOf f) :
    K.Compatible e f ↔ Claimed.Compatible (S.span? e) (S.span? f) := by
  rw [EntryKind.Compatible, S.inherits_iff, S.inherits_iff]
  cases hu : S.span? e with
  | none => simp [Claimed.Compatible, hclass]
  | some u =>
    cases hv : S.span? f with
    | none => simp [Claimed.Compatible, hclass]
    | some v =>
      have hboth := S.holds_both_iff he hf hu hv
      rw [Claimed.Compatible, ← not_iff_not, ← hboth]
      simp [hclass]

theorem forall_compatible_iff (hes : ∀ x ∈ es, IsMade x) (he : IsMade e) :
    (∀ x ∈ es, K.Compatible x e) ↔
      ∀ y ∈ S.claimsOf (K.classOf e) es, Claimed.Compatible y (S.span? e) := by
  constructor
  · intro h y hy
    obtain ⟨x, hx, hclass, rfl⟩ := S.mem_claimsOf.mp hy
    exact (S.compatible_iff (hes x hx) he hclass).mp (h x hx)
  · intro h x hx hclass
    have hclaim := h _ (S.mem_claimsOf.mpr ⟨x, hx, hclass, rfl⟩)
    exact (S.compatible_iff (hes x hx) he hclass).mpr hclaim hclass

/-- Where there are claims on the class of an entry, it clashes if one of them or its own is for
    all of the class. -/
theorem clashes_iff (hne : S.claimsOf (K.classOf e) es ≠ []) :
    K.Clashes es e ↔ S.span? e = none ∨ none ∈ S.claimsOf (K.classOf e) es := by
  constructor
  · rintro ⟨x, hx, hclass, hinherits | hinherits⟩
    · exact Or.inr (S.mem_claimsOf.mpr ⟨x, hx, hclass, (S.inherits_iff x).mp hinherits⟩)
    · exact Or.inl ((S.inherits_iff e).mp hinherits)
  · rintro (hspan | hnone)
    · obtain ⟨y, hy⟩ := List.exists_mem_of_ne_nil _ hne
      obtain ⟨x, hx, hclass, -⟩ := S.mem_claimsOf.mp hy
      exact ⟨x, hx, hclass, Or.inr ((S.inherits_iff e).mpr hspan)⟩
    · obtain ⟨x, hx, hclass, hspan⟩ := S.mem_claimsOf.mp hnone
      exact ⟨x, hx, hclass, Or.inl ((S.inherits_iff x).mpr hspan)⟩

/-! ### The invariant -/

/-- The claims that a builder keeps are those of its entries. -/
structure Tracks (limit : Nat) (s : B.State) : Prop where
  limit_eq : S.limit s = limit
  isMade : ∀ x ∈ B.entries s, IsMade x
  holds : ∀ k, (S.claimed s k).Holds (S.claimsOf k (B.entries s))

theorem tracks_new (limit : Nat) : S.Tracks limit (B.new limit) where
  limit_eq := S.limit_new limit
  isMade x hx := by
    rw [S.entries_new] at hx
    exact absurd hx List.not_mem_nil
  holds k := by
    rw [S.entries_new, S.claimed_new]
    exact Claimed.holds_empty

include S in
/-- Whatever is refused, the builder is left as it was. -/
theorem offer_of_error {r : ε} (h : (B.push s e).2 = .error r) : B.offer s e = s := by
  rw [Collector.offer]
  rcases Nat.lt_or_ge (B.entries s).length (S.limit s) with hroom | hfull
  · cases hclaim : ((S.claimed s (K.classOf e)).claim (S.span? e)).2 with
    | ok _ =>
      obtain ⟨s', hpush, -⟩ := S.push_ok s e _ hroom (Prod.ext rfl hclaim)
      simp [hpush] at h
    | error conflict => rw [S.push_error s e conflict hroom hclaim]
  · rw [S.push_full s e hfull]

/-- An entry that is to be taken is taken, and its claim is added to those of its class. -/
theorem Tracks.exists_push (hs : S.Tracks limit s) (he : IsMade e)
    (htakes : K.Takes limit (B.entries s) e) :
    ∃ s', B.push s e = (s', .ok ()) ∧ S.Tracks limit s' ∧ B.entries s' = B.entries s ++ [e] := by
  obtain ⟨hroom, hall⟩ := htakes
  have hlimit := hs.limit_eq
  have hspan := S.first_le_last e he
  have hholds := hs.holds (K.classOf e)
  rw [S.forall_compatible_iff hs.isMade he] at hall
  obtain ⟨c, hc⟩ := hholds.exists_claim hspan hall
  obtain ⟨s', hpush, hlimit', hentries, hclaimed, hother⟩ := S.push_ok s e c (hlimit ▸ hroom) hc
  refine ⟨s', hpush, ⟨hlimit'.trans hlimit, fun x hx => ?_, fun k => ?_⟩, hentries⟩
  · rw [hentries] at hx
    rcases List.mem_append.mp hx with hx | hx
    · exact hs.isMade x hx
    · exact List.mem_singleton.mp hx ▸ he
  · rw [hentries, claimsOf_append]
    by_cases hk : K.classOf e = k
    · subst hk
      rw [if_pos rfl, hclaimed]
      exact hholds.claim hspan hc
    · rw [if_neg hk, List.append_nil, hother k hk]
      exact hs.holds k

/-- An entry that an entry of its class does not go with is refused for that reason. -/
theorem Tracks.exists_refusal (hs : S.Tracks limit s) (he : IsMade e)
    (hroom : (B.entries s).length < limit) (hnot : ∃ x ∈ B.entries s, ¬K.Compatible x e) :
    ∃ reason, K.Refuses limit (B.entries s) e reason ∧
      B.push s e = (s, .error (B.error reason)) := by
  have hclash : ∃ y ∈ S.claimsOf (K.classOf e) (B.entries s),
      ¬Claimed.Compatible y (S.span? e) := by
    have hsome : ¬∀ x ∈ B.entries s, K.Compatible x e := by simpa using hnot
    rw [S.forall_compatible_iff hs.isMade he] at hsome
    simpa using hsome
  have hne : S.claimsOf (K.classOf e) (B.entries s) ≠ [] := by
    obtain ⟨y, hy, -⟩ := hclash
    exact List.ne_nil_of_mem hy
  have hclaim := (hs.holds (K.classOf e)).claim_eq_error (S.first_le_last e he) hclash
  have herror := S.push_error s e _ (hs.limit_eq ▸ hroom) hclaim
  by_cases hinherit : K.Clashes (B.entries s) e
  · rw [if_pos ((S.clashes_iff hne).mp hinherit)] at herror
    exact ⟨.inherit, ⟨hroom, hinherit⟩, herror⟩
  · rw [if_neg fun h => hinherit ((S.clashes_iff hne).mpr h)] at herror
    exact ⟨.overlap, ⟨hroom, hinherit, hnot⟩, herror⟩

/-- The one step: an entry is taken, and the invariant is kept, or it is refused for a reason, and
    the builder is left as it was. -/
theorem Tracks.push_cases (hs : S.Tracks limit s) (he : IsMade e) :
    (K.Takes limit (B.entries s) e ∧ ∃ s', B.push s e = (s', .ok ()) ∧ S.Tracks limit s' ∧
      B.entries s' = B.entries s ++ [e]) ∨
    ∃ reason, K.Refuses limit (B.entries s) e reason ∧
      B.push s e = (s, .error (B.error reason)) := by
  rcases Nat.lt_or_ge (B.entries s).length limit with hroom | hfull
  · by_cases hall : ∀ x ∈ B.entries s, K.Compatible x e
    · exact .inl ⟨⟨hroom, hall⟩, hs.exists_push S he ⟨hroom, hall⟩⟩
    · exact .inr (hs.exists_refusal S he hroom (by simpa using hall))
  · exact .inr ⟨.tooMany, hfull, S.push_full s e (hs.limit_eq ▸ hfull)⟩

theorem Tracks.offer (hs : S.Tracks limit s) (he : IsMade e) : S.Tracks limit (B.offer s e) := by
  rw [Collector.offer]
  rcases hs.push_cases S he with ⟨-, s', hpush, hs', -⟩ | ⟨reason, -, hpush⟩
  · rw [hpush]
    exact hs'
  · rw [hpush]
    exact hs

/-- What is offered to a builder keeps the invariant, whether it is taken or not. -/
theorem tracks_after (hes : ∀ x ∈ es, IsMade x) : S.Tracks limit (B.after limit es) := by
  induction es using List.reverseRecOn with
  | nil => exact S.tracks_new limit
  | append_singleton es e ih =>
    rw [B.after_concat]
    exact (ih fun x hx => hes x (List.mem_append_left _ hx)).offer S
      (hes e (List.mem_append_right _ List.mem_cons_self))

end Bookkeeping

/-! ### The reference -/

namespace EntryKind

variable {α : Type} {K : EntryKind α} {limit : Nat} {held : List α} {e : α}

theorem Clashes.not_compatible (h : K.Clashes held e) : ∃ x ∈ held, ¬K.Compatible x e := by
  obtain ⟨x, hx, hclass, hinherits⟩ := h
  refine ⟨x, hx, fun hcompatible => ?_⟩
  obtain ⟨hx, he, -⟩ := hcompatible hclass
  exact hinherits.elim hx he

theorem Takes.not_refuses (h : K.Takes limit held e) {reason : EntryRefusal} :
    ¬K.Refuses limit held e reason := by
  intro hrefuses
  have hall : ¬∃ x ∈ held, ¬K.Compatible x e := fun ⟨x, hx, hnot⟩ => hnot (h.2 x hx)
  cases reason with
  | tooMany => exact Nat.not_lt.mpr hrefuses h.1
  | inherit => exact hall hrefuses.2.not_compatible
  | overlap => exact hall hrefuses.2.2

theorem Refuses.unique {reason reason' : EntryRefusal} (h : K.Refuses limit held e reason)
    (h' : K.Refuses limit held e reason') : reason = reason' := by
  cases reason <;> cases reason' <;> first
    | rfl
    | exact absurd h'.1 (Nat.not_lt.mpr h)
    | exact absurd h.1 (Nat.not_lt.mpr h')
    | exact absurd h.2 h'.2.1
    | exact absurd h'.2 h.2.1

end EntryKind

namespace Bookkeeping

variable {α ε : Type} {B : Collector α ε} {K : EntryKind α} {IsMade : α → Prop}
  (S : Bookkeeping B K IsMade) {limit : Nat} {s t : B.State} {e : α} {es : List α}

theorem Tracks.compares (hs : S.Tracks limit s) (he : IsMade e) : B.Compares K limit s e := by
  rcases hs.push_cases S he with ⟨htakes, s', hpush, -, hentries⟩ | ⟨reason, hrefuses, hpush⟩
  · refine ⟨iff_of_true (by rw [hpush]) htakes, fun _ => ?_, fun r => iff_of_false ?_ ?_⟩
    · rw [Collector.offer, hpush]
      exact hentries
    · simp [hpush]
    · rintro ⟨reason, -, hrefuses⟩
      exact htakes.not_refuses hrefuses
  · refine ⟨iff_of_false ?_ fun htakes => htakes.not_refuses hrefuses, fun htaken => ?_,
      fun r => ⟨fun hrefused => ?_, ?_⟩⟩
    · simp [hpush]
    · simp [hpush] at htaken
    · rw [hpush] at hrefused
      exact ⟨reason, (Except.error.inj hrefused).symm, hrefuses⟩
    · rintro ⟨reason', rfl, hrefuses'⟩
      rw [hpush, hrefuses.unique hrefuses']

/-- Two builders with the same entries go on giving the same answers. -/
theorem Tracks.answers_eq (hs : S.Tracks limit s) (ht : S.Tracks limit t)
    (hentries : B.entries s = B.entries t) {more : List α} (hmore : ∀ x ∈ more, IsMade x) :
    B.answers s more = B.answers t more := by
  induction more generalizing s t with
  | nil => rfl
  | cons e more ih =>
    obtain ⟨he, hmore⟩ := List.forall_mem_cons.mp hmore
    have hcs := hs.compares S he
    have hct := ht.compares S he
    rw [Collector.answers, Collector.answers]
    cases hanswer : (B.push s e).2 with
    | ok _ =>
      have hanswer' := hct.taken_iff.mpr (hentries ▸ hcs.taken_iff.mp hanswer)
      have hsame : B.entries (B.offer s e) = B.entries (B.offer t e) := by
        rw [hcs.entries_eq hanswer, hct.entries_eq hanswer', hentries]
      rw [hanswer', ih (hs.offer S he) (ht.offer S he) hsame hmore]
    | error r =>
      have hanswer' := (hct.refused_iff r).mpr (hentries ▸ (hcs.refused_iff r).mp hanswer)
      rw [hanswer', S.offer_of_error hanswer, S.offer_of_error hanswer',
        ih hs ht hentries hmore]

include S in
/-- A builder that has taken all of some entries holds these. -/
theorem entries_after (hes : ∀ x ∈ es, IsMade x) (h : B.TakesAll limit es) :
    B.entries (B.after limit es) = es := by
  induction es using List.reverseRecOn with
  | nil => exact S.entries_new limit
  | append_singleton es e ih =>
    obtain ⟨hearlier, htaken⟩ := B.takesAll_concat.mp h
    have hmade : ∀ x ∈ es, IsMade x := fun x hx => hes x (List.mem_append_left _ hx)
    have he := hes e (List.mem_append_right _ List.mem_cons_self)
    rw [B.after_concat, ((S.tracks_after hmade).compares S he).entries_eq htaken,
      ih hmade hearlier]

include S in
/-- One more entry is taken with the others if there is room and it is compatible with all. -/
theorem takesAll_concat_iff (hes : ∀ x ∈ es, IsMade x) (he : IsMade e) :
    B.TakesAll limit (es ++ [e]) ↔ B.TakesAll limit es ∧ K.Takes limit es e := by
  rw [B.takesAll_concat]
  refine and_congr_right fun h => ?_
  rw [((S.tracks_after hes).compares S he).taken_iff, S.entries_after hes h]

include S in
theorem takesAll_iff (hes : ∀ x ∈ es, IsMade x) :
    B.TakesAll limit es ↔ es.length ≤ limit ∧ es.Pairwise K.Compatible := by
  induction es using List.reverseRecOn with
  | nil => exact iff_of_true (fun _ h => absurd h List.not_mem_nil) ⟨Nat.zero_le _, .nil⟩
  | append_singleton es e ih =>
    have hearlier : ∀ x ∈ es, IsMade x := fun x hx => hes x (List.mem_append_left _ hx)
    rw [S.takesAll_concat_iff hearlier (hes e (List.mem_append_right _ List.mem_cons_self)),
      ih hearlier, EntryKind.Takes, List.pairwise_append, List.length_append,
      List.length_singleton]
    simp only [List.pairwise_singleton, List.mem_singleton, forall_eq, true_and]
    constructor
    · rintro ⟨⟨-, hpairs⟩, hroom, hlast⟩
      exact ⟨hroom, hpairs, hlast⟩
    · rintro ⟨hroom, hpairs, hlast⟩
      exact ⟨⟨Nat.le_of_lt hroom, hpairs⟩, hroom, hlast⟩

/-- Whatever has been offered, a range finds a place among those of a class exactly if it is apart
    from its two neighbours. -/
def LooksAtNeighbours : Prop :=
  ∀ limit es k u, (∀ x ∈ es, IsMade x) → u.first ≤ u.last →
    (Claimed.insertSpan u (S.claimed (B.after limit es) k).spans).isSome
      = Claimed.fitsBetween u (S.claimed (B.after limit es) k).spans

theorem looksAtNeighbours : S.LooksAtNeighbours := fun _ _ k _ hes hu =>
  Claimed.isSome_insertSpan hu ((S.tracks_after hes).holds k).descending

include S in
/-- A builder that keeps the claims of its entries compares every pair of them. -/
theorem comparesAll : B.ComparesAll K IsMade where
  compares limit es e hes he := (S.tracks_after hes).compares S he
  unchanged limit es e r more hes hmore hpush := by
    rw [B.after_concat, S.offer_of_error hpush]
    exact ⟨rfl, rfl⟩
  answers_eq limit es es' more hes hes' hmore hentries :=
    (S.tracks_after hes).answers_eq S (S.tracks_after hes') hentries hmore
  takesAll_iff limit es hes := S.takesAll_iff hes
  takesAll_perm limit es es' hperm hes := by
    have hes' : ∀ x ∈ es', IsMade x := fun x hx => hes x (hperm.mem_iff.mpr hx)
    rw [S.takesAll_iff hes, S.takesAll_iff hes', hperm.length_eq,
      hperm.pairwise_iff fun h => h.symm]

end Bookkeeping

end ResourcePki

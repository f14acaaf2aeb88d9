import ResourcePki.Resources.Claimed

/-!
Claims on the numbers of one class of resources.

A claim is a range of numbers, or `none` for all of the class. Two claims can stand beside each
other only if both are ranges and no number is in both. The bookkeeping compares a new range with
the ones above its place and the first one below it; since the ranges it keeps are in descending
order and each ends below the one before it, that is as good as comparing it with all of them. So
whatever has been accepted is compatible in every pair, in whichever order it came
(`Holds.compatible`).
-/

namespace ResourcePki

/-- Two ranges share no number. -/
def Span.Apart (s t : Span) : Prop :=
  s.last < t.first ∨ t.last < s.first

namespace Claimed

/-! ### Ranges in descending order -/

/-- Every range ends below the one before it, and none is empty. -/
structure Descending (ts : List Span) : Prop where
  proper : ∀ t ∈ ts, t.first ≤ t.last
  below : ts.Pairwise fun s t => t.last < s.first

theorem Descending.tail {t : Span} {ts : List Span} (h : Descending (t :: ts)) : Descending ts :=
  ⟨fun u hu => h.proper u (List.mem_cons_of_mem _ hu), (List.pairwise_cons.mp h.below).2⟩

theorem Descending.cons {s : Span} {ts : List Span} (hs : s.first ≤ s.last)
    (hlow : ∀ t ∈ ts, t.last < s.first) (h : Descending ts) : Descending (s :: ts) := by
  refine ⟨fun u hu => ?_, List.pairwise_cons.mpr ⟨hlow, h.below⟩⟩
  rcases List.mem_cons.mp hu with rfl | hu
  · exact hs
  · exact h.proper u hu

/-- A range above the first of some others is above all of them. -/
theorem Descending.last_lt {t : Span} {ts : List Span} (h : Descending (t :: ts)) {n : Nat}
    (hn : t.last < n) : ∀ u ∈ t :: ts, u.last < n := by
  intro u hu
  rcases List.mem_cons.mp hu with rfl | hu
  · exact hn
  · have hbelow := (List.pairwise_cons.mp h.below).1 u hu
    have ht := h.proper t List.mem_cons_self
    omega

theorem perm_of_insertSpan {s : Span} : ∀ {ts us : List Span}, insertSpan s ts = some us →
    us.Perm (s :: ts)
  | [], us, h => by
    rw [insertSpan, Option.some.injEq] at h
    exact h ▸ List.Perm.refl _
  | t :: ts, us, h => by
    rw [insertSpan] at h
    split at h
    · split at h
      · simp at h
      · rw [Option.some.injEq] at h
        exact h ▸ List.Perm.refl _
    · split at h
      · simp at h
      · obtain ⟨vs, hvs, rfl⟩ := Option.map_eq_some_iff.mp h
        exact ((perm_of_insertSpan hvs).cons t).trans (List.Perm.swap s t ts)

/-- What is accepted takes its place among the ranges and shares no number with any of them. -/
theorem descending_of_insertSpan {s : Span} (hs : s.first ≤ s.last) : ∀ {ts us : List Span},
    Descending ts → insertSpan s ts = some us → Descending us ∧ ∀ t ∈ ts, t.Apart s
  | [], us, hd, h => by
    rw [insertSpan, Option.some.injEq] at h
    exact ⟨h ▸ Descending.cons hs (by simp) hd, by simp⟩
  | t :: ts, us, hd, h => by
    rw [insertSpan] at h
    split at h
    · -- the place is in front of `t`, so everything else is further down
      split at h
      · simp at h
      · rename_i hle hlt
        rw [Option.some.injEq] at h
        have hlow := hd.last_lt (n := s.first) (by omega)
        exact ⟨h ▸ hd.cons hs hlow, fun u hu => Or.inl (hlow u hu)⟩
    · split at h
      · simp at h
      · -- the place is behind `t`, which ends the comparison with what is further up
        rename_i hgt hapart
        obtain ⟨vs, hvs, rfl⟩ := Option.map_eq_some_iff.mp h
        obtain ⟨hdesc, hall⟩ := descending_of_insertSpan hs hd.tail hvs
        have ht := hd.proper t List.mem_cons_self
        constructor
        · refine hdesc.cons ht fun u hu => ?_
          rcases List.mem_cons.mp ((perm_of_insertSpan hvs).mem_iff.mp hu) with rfl | hu
          · omega
          · exact (List.pairwise_cons.mp hd.below).1 u hu
        · intro u hu
          rcases List.mem_cons.mp hu with rfl | hu
          · exact Or.inr (by omega)
          · exact hall u hu

/-- There is a place for a range that shares no number with any of the others. -/
theorem exists_insertSpan {s : Span} (hs : s.first ≤ s.last) : ∀ {ts : List Span},
    Descending ts → (∀ t ∈ ts, t.Apart s) → ∃ us, insertSpan s ts = some us
  | [], _, _ => ⟨[s], rfl⟩
  | t :: ts, hd, h => by
    have hapart : t.last < s.first ∨ s.last < t.first := h t List.mem_cons_self
    have ht := hd.proper t List.mem_cons_self
    rw [insertSpan]
    split
    · exact ⟨s :: t :: ts, if_neg (by omega)⟩
    · obtain ⟨us, hus⟩ := exists_insertSpan hs hd.tail fun u hu => h u (List.mem_cons_of_mem _ hu)
      rw [if_neg (by omega), hus]
      exact ⟨t :: us, rfl⟩

/-- Whether a range is apart from its two neighbours: the highest range that does not begin above
    it and the lowest one that does not begin below it. -/
def fitsBetween (s : Span) (ts : List Span) : Bool :=
  (ts.find? fun t => t.first ≤ s.first).all (fun t => t.last < s.first) &&
    (ts.reverse.find? fun t => s.first ≤ t.first).all fun t => s.last < t.first

/-- Ranges that are further away than a neighbour are so in the same direction. -/
theorem fitsBetween_iff {s : Span} (hs : s.first ≤ s.last) {ts : List Span} (hd : Descending ts) :
    fitsBetween s ts = true ↔ ∀ t ∈ ts, t.Apart s := by
  simp only [fitsBetween, Bool.and_eq_true, Option.all_eq_true, decide_eq_true_eq]
  constructor
  · rintro ⟨hlower, hupper⟩ t ht
    by_cases hfirst : t.first ≤ s.first
    · -- the neighbour below is `t` or stands in front of it
      left
      have hsome : (ts.find? fun t => t.first ≤ s.first).isSome = true :=
        List.find?_isSome.mpr ⟨t, ht, decide_eq_true hfirst⟩
      obtain ⟨u, hu⟩ := Option.isSome_iff_exists.mp hsome
      have hlow := hlower u hu
      obtain ⟨hu, before, after, rfl, hbefore⟩ := List.find?_eq_some_iff_append.mp hu
      rcases List.mem_append.mp ht with ht | ht
      · simpa [hfirst] using hbefore t ht
      · have hrest : Descending (u :: after) :=
          ⟨fun v hv => hd.proper v (List.mem_append_right _ hv),
            (List.pairwise_append.mp hd.below).2.1⟩
        exact hrest.last_lt hlow t ht
    · -- the neighbour above is `t` or stands behind it
      right
      have hreverse : ts.reverse.Pairwise fun u v => u.last < v.first :=
        List.pairwise_reverse.mpr hd.below
      rw [← List.mem_reverse] at ht
      have hsome : (ts.reverse.find? fun t => s.first ≤ t.first).isSome = true :=
        List.find?_isSome.mpr ⟨t, ht, decide_eq_true (Nat.le_of_not_le hfirst)⟩
      obtain ⟨u, hu⟩ := Option.isSome_iff_exists.mp hsome
      have hproper := hd.proper u (List.mem_reverse.mp (List.mem_of_find?_eq_some hu))
      have hhigh := hupper u hu
      obtain ⟨-, before, after, heq, hbefore⟩ := List.find?_eq_some_iff_append.mp hu
      rw [heq] at ht hreverse
      rcases List.mem_append.mp ht with ht | ht
      · have hnot := hbefore t ht
        simp only [Bool.not_eq_true', decide_eq_false_iff_not] at hnot
        omega
      · rcases List.mem_cons.mp ht with rfl | ht
        · exact hhigh
        · have hbelow := (List.pairwise_cons.mp (List.pairwise_append.mp hreverse).2.1).1 t ht
          omega
  · intro hapart
    constructor
    · intro t ht
      have hfirst := List.find?_some ht
      have hboth := hapart t (List.mem_of_find?_eq_some ht)
      rw [decide_eq_true_eq] at hfirst
      rw [Span.Apart] at hboth
      omega
    · intro t ht
      have hfirst := List.find?_some ht
      have hmem := List.mem_reverse.mp (List.mem_of_find?_eq_some ht)
      have hproper := hd.proper t hmem
      have hboth := hapart t hmem
      rw [decide_eq_true_eq] at hfirst
      rw [Span.Apart] at hboth
      omega

/-- There is a place for a range exactly if it is apart from its neighbours. -/
theorem isSome_insertSpan {s : Span} (hs : s.first ≤ s.last) {ts : List Span}
    (hd : Descending ts) : (insertSpan s ts).isSome = fitsBetween s ts := by
  rw [Bool.eq_iff_iff, fitsBetween_iff hs hd, Option.isSome_iff_exists]
  constructor
  · rintro ⟨us, hus⟩
    exact (descending_of_insertSpan hs hd hus).2
  · exact exists_insertSpan hs hd

/-! ### Claims -/

/-- Claims that can stand beside each other. -/
def Compatible : Option Span → Option Span → Prop
  | some s, some t => s.Apart t
  | _, _ => False

/-- Makes a claim. -/
def claim (c : Claimed) : Option Span → Claimed × Except Conflict Unit
  | none => c.inherit
  | some s => c.insert s

/-- What is refused leaves the claims as they were. -/
theorem eq_of_claim_error {c c' : Claimed} {x : Option Span} {conflict : Conflict}
    (h : c.claim x = (c', .error conflict)) : c' = c := by
  cases x with
  | none =>
    rw [claim, inherit] at h
    split at h
    · exact (Prod.mk.inj h).1.symm
    · simp at h
  | some s =>
    rw [claim, insert] at h
    split at h
    · exact (Prod.mk.inj h).1.symm
    · split at h
      · simp at h
      · exact (Prod.mk.inj h).1.symm

/-- What has been kept after some claims have been made, all of them with success. -/
structure Holds (c : Claimed) (claims : List (Option Span)) : Prop where
  inherited_iff : c.inherited = true ↔ none ∈ claims
  perm : c.spans.Perm (claims.filterMap id)
  descending : Descending c.spans
  compatible : claims.Pairwise Compatible

theorem holds_empty : Holds empty [] :=
  ⟨by simp [empty], List.Perm.refl _, ⟨by simp [empty], List.Pairwise.nil⟩, List.Pairwise.nil⟩

/-- A class that can still be inherited has no claims. -/
theorem Holds.claims_eq_nil {c : Claimed} {claims : List (Option Span)} (h : Holds c claims)
    (hinh : c.inherited = false) (hspans : c.spans = []) : claims = [] := by
  have hnone : none ∉ claims := fun hmem => by simp [h.inherited_iff.mpr hmem] at hinh
  have hranges : claims.filterMap id = [] := by
    have hperm := h.perm
    rw [hspans] at hperm
    exact hperm.symm.eq_nil
  rw [List.eq_nil_iff_forall_not_mem]
  intro x hx
  cases x with
  | none => exact hnone hx
  | some s =>
    have : s ∈ claims.filterMap id := List.mem_filterMap.mpr ⟨some s, hx, rfl⟩
    rw [hranges] at this
    simp at this

theorem Holds.inherit {c c' : Claimed} {claims : List (Option Span)} (h : Holds c claims)
    (hc : c.inherit = (c', .ok ())) : Holds c' (claims ++ [none]) := by
  unfold Claimed.inherit at hc
  split at hc
  · simp at hc
  · rename_i hfree
    rw [Bool.not_eq_true, Bool.or_eq_false_iff, Bool.not_eq_false', List.isEmpty_iff] at hfree
    obtain rfl := (Prod.mk.inj hc).1
    have hnil := h.claims_eq_nil hfree.1 hfree.2
    subst hnil
    exact ⟨by simp, by simp [hfree.2], h.descending, List.pairwise_singleton _ _⟩

theorem Holds.insert {c c' : Claimed} {claims : List (Option Span)} (h : Holds c claims) {s : Span}
    (hs : s.first ≤ s.last) (hc : c.insert s = (c', .ok ())) : Holds c' (claims ++ [some s]) := by
  unfold Claimed.insert at hc
  split at hc
  · simp at hc
  · rename_i hinh
    split at hc
    · rename_i us hus
      obtain rfl := (Prod.mk.inj hc).1
      have hperm := perm_of_insertSpan hus
      obtain ⟨hdesc, hapart⟩ := descending_of_insertSpan hs h.descending hus
      have hnone : none ∉ claims := fun hmem => hinh (h.inherited_iff.mpr hmem)
      refine ⟨by simp [hinh, hnone], ?_, hdesc, ?_⟩
      · rw [List.filterMap_append]
        exact hperm.trans ((h.perm.cons s).trans (List.perm_append_singleton s _).symm)
      · refine List.pairwise_append.mpr ⟨h.compatible, List.pairwise_singleton _ _, ?_⟩
        intro x hx y hy
        rw [List.mem_singleton] at hy
        subst hy
        cases x with
        | none => exact absurd hx hnone
        | some t => exact hapart t (h.perm.mem_iff.mpr (List.mem_filterMap.mpr ⟨some t, hx, rfl⟩))
    · simp at hc

/-- An accepted claim goes behind the others and is compatible with each of them. -/
theorem Holds.claim {c c' : Claimed} {claims : List (Option Span)} (h : Holds c claims) :
    ∀ {x : Option Span}, (∀ s ∈ x, s.first ≤ s.last) → c.claim x = (c', .ok ()) →
      Holds c' (claims ++ [x])
  | none, _, hc => h.inherit hc
  | some s, hx, hc => h.insert (hx s rfl) hc

/-- A claim that is compatible with each of the earlier ones is accepted. -/
theorem Holds.exists_claim {c : Claimed} {claims : List (Option Span)} (h : Holds c claims) :
    ∀ {x : Option Span}, (∀ s ∈ x, s.first ≤ s.last) → (∀ y ∈ claims, Compatible y x) →
      ∃ c', c.claim x = (c', .ok ())
  | none, _, hfree => by
    -- nothing stands beside a claim for all of the class
    have hnil : claims = [] := List.eq_nil_iff_forall_not_mem.mpr fun y hy => by
      have hcompatible := hfree y hy
      cases y <;> exact hcompatible
    have hinherited : c.inherited = false := by
      rw [← Bool.not_eq_true, h.inherited_iff, hnil]
      exact List.not_mem_nil
    have hspans : c.spans = [] := by
      have hperm := h.perm
      rw [hnil] at hperm
      exact hperm.eq_nil
    exact ⟨_, if_neg (by simp [hinherited, hspans])⟩
  | some s, hx, hfree => by
    have hinherited : ¬c.inherited = true := fun hinherited =>
      hfree none (h.inherited_iff.mp hinherited)
    have hapart : ∀ t ∈ c.spans, t.Apart s := by
      intro t ht
      obtain ⟨y, hy, hyt⟩ := List.mem_filterMap.mp (h.perm.mem_iff.mp ht)
      have hcompatible := hfree y hy
      rw [show y = some t from hyt] at hcompatible
      exact hcompatible
    obtain ⟨us, hus⟩ := exists_insertSpan (hx s rfl) h.descending hapart
    refine ⟨{ c with spans := us }, ?_⟩
    show c.insert s = _
    rw [Claimed.insert, if_neg hinherited, hus]

/-- Any other claim is refused, and the reason says whether all of the class was claimed. -/
theorem Holds.claim_eq_error {c : Claimed} {claims : List (Option Span)} (h : Holds c claims)
    {x : Option Span} (hx : ∀ s ∈ x, s.first ≤ s.last) (hclash : ∃ y ∈ claims, ¬Compatible y x) :
    (c.claim x).2 = .error (if x = none ∨ none ∈ claims then .inherit else .overlap) := by
  obtain ⟨y, hy, hclash⟩ := hclash
  cases x with
  | none =>
    have htaken : (c.inherited || !c.spans.isEmpty) = true := by
      rw [← Bool.not_eq_false, Bool.or_eq_false_iff, Bool.not_eq_false', List.isEmpty_iff]
      rintro ⟨hinherited, hspans⟩
      rw [h.claims_eq_nil hinherited hspans] at hy
      exact List.not_mem_nil hy
    rw [if_pos (Or.inl rfl), Claimed.claim, Claimed.inherit, if_pos htaken]
  | some s =>
    rw [Claimed.claim, Claimed.insert]
    by_cases hnone : none ∈ claims
    · rw [if_pos (h.inherited_iff.mpr hnone), if_pos (Or.inr hnone)]
    · -- a range that had found a place would be apart from all of them
      have hplace : insertSpan s c.spans = none := by
        refine Option.eq_none_iff_forall_ne_some.mpr fun us hus => hclash ?_
        obtain ⟨-, hapart⟩ := descending_of_insertSpan (hx s rfl) h.descending hus
        cases y with
        | none => exact absurd hy hnone
        | some t => exact hapart t (h.perm.mem_iff.mpr (List.mem_filterMap.mpr ⟨some t, hy, rfl⟩))
      rw [if_neg (fun hinherited => hnone (h.inherited_iff.mp hinherited)), hplace,
        if_neg (by simpa using hnone)]

/-- If one of some compatible claims is for all of the class, there are no others. -/
theorem eq_singleton_of_compatible {claims : List (Option Span)} (h : claims.Pairwise Compatible)
    (hnone : none ∈ claims) : claims = [none] := by
  obtain ⟨before, after, rfl⟩ := List.append_of_mem hnone
  obtain ⟨-, hafter, hcross⟩ := List.pairwise_append.mp h
  have hb : before = [] := List.eq_nil_iff_forall_not_mem.mpr fun x hx => by
    have := hcross x hx none List.mem_cons_self
    cases x <;> exact this
  have ha : after = [] := List.eq_nil_iff_forall_not_mem.mpr fun x hx =>
    (List.pairwise_cons.mp hafter).1 x hx
  rw [hb, ha, List.nil_append]

end Claimed

end ResourcePki

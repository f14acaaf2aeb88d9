import ResourcePki.Proofs.Der.Ensures
import ResourcePki.Proofs.Resources.Claimed
import ResourcePki.Resources.AsDer

/-!
What the AS resources of a certificate can be.

There is only one class of AS resources, so the claims of the builder are those of all its entries
in order. The builder accepts the number zero and ranges of any order; that entries have neither is
a rule of reading. Zero can still be the first number of a range.
-/

namespace ResourcePki

namespace AsNumber

theorem toNat_ofNat {n : Nat} (h : n < 4294967296) : (ofNat n).toNat = n :=
  UInt32.toNat_ofNat_of_lt' h

theorem ofNat_toNat (n : AsNumber) : ofNat n.toNat = n := by
  obtain ⟨v⟩ := n
  simp [ofNat, toNat]

theorem toNat_lt (n : AsNumber) : n.toNat < 4294967296 :=
  n.value.toNat_lt

end AsNumber

namespace AsEntry

/-- Whether an entry holds a number; one that inherits holds none itself. -/
def Holds (n : AsNumber) : AsEntry → Prop
  | .inherit => False
  | .single m => m = n
  | .range r => r.first.toNat ≤ n.toNat ∧ n.toNat ≤ r.last.toNat

/-- The claim that an entry makes. -/
def span? (e : AsEntry) : Option Span :=
  e.bounds?.map fun b => ⟨b.1.toNat, b.2.toNat⟩

/-- What holds of every entry: a single number is not the reserved one, a range has at least two. -/
def IsProper : AsEntry → Prop
  | .inherit => True
  | .single n => n ≠ AsNumber.reserved
  | .range r => r.first.toNat < r.last.toNat

theorem IsProper.first_le_last {e : AsEntry} (he : e.IsProper) :
    ∀ s ∈ e.span?, s.first ≤ s.last := by
  intro s hs
  cases e with
  | inherit => simp [span?, bounds?] at hs
  | single n =>
    simp only [span?, bounds?, Option.map_some, Option.mem_some_iff] at hs
    exact hs ▸ Nat.le_refl _
  | range r =>
    simp only [span?, bounds?, Option.map_some, Option.mem_some_iff] at hs
    exact hs ▸ Nat.le_of_lt he

theorem eq_inherit_of_span? : ∀ {e : AsEntry}, e.span? = none → e = .inherit
  | .inherit, _ => rfl
  | .single _, h => by simp [span?, bounds?] at h
  | .range _, h => by simp [span?, bounds?] at h

/-- Compatible entries hold no number in common. -/
theorem not_holds_both {e f : AsEntry} (h : Claimed.Compatible e.span? f.span?) (n : AsNumber) :
    ¬(e.Holds n ∧ f.Holds n) := by
  rintro ⟨he, hf⟩
  cases e <;> cases f <;>
    simp only [span?, bounds?, Option.map_some, Option.map_none, Claimed.Compatible,
      Span.Apart, Holds] at h he hf
  · subst he hf
    omega
  · subst he
    omega
  · subst hf
    omega
  · omega

end AsEntry

/-- What holds of the AS resources of every accepted certificate. -/
structure AsResources.IsProper (limit : Nat) (r : AsResources) : Prop where
  length_le : r.entries.length ≤ limit
  /-- Everything is inherited by the only entry, or the entries have no number in common. -/
  exclusive : r.entries = [.inherit] ∨
    .inherit ∉ r.entries ∧ r.entries.Pairwise fun e f => ∀ n, ¬(e.Holds n ∧ f.Holds n)
  entries : ∀ e ∈ r.entries, e.IsProper

theorem AsResources.isProper_empty (limit : Nat) : empty.IsProper limit where
  length_le := Nat.zero_le _
  exclusive := Or.inr ⟨by simp [empty], List.Pairwise.nil⟩
  entries := by simp [empty]

theorem AsResources.isInherited_iff {r : AsResources} :
    r.isInherited = true ↔ .inherit ∈ r.entries := by
  simp [isInherited]

/-! ### The builder -/

namespace AsBuilder

/-- The invariant of the builder. -/
structure IsSound (limit : Nat) (b : AsBuilder) : Prop where
  limit_eq : b.limit = limit
  size_le : b.entries.size ≤ limit
  holds : b.claimed.Holds (b.entries.toList.map (·.span?))
  proper : ∀ e ∈ b.entries.toList, e.IsProper

theorem isSound_new (limit : Nat) : (new limit).IsSound limit where
  limit_eq := rfl
  size_le := Nat.zero_le _
  holds := Claimed.holds_empty
  proper := by simp [new]

theorem claim_eq (c : Claimed) (e : AsEntry) : claim c e = c.claim e.span? := by
  cases e with
  | inherit => rfl
  | single n => rfl
  | range r => rfl

/-- What an accepted entry does: there is room for it, and its claim is added. -/
theorem of_push {b b' : AsBuilder} {e : AsEntry} (h : b.push e = (b', .ok ())) :
    b.entries.size < b.limit ∧ ∃ c, b.claimed.claim e.span? = (c, .ok ()) ∧
      b' = { b with claimed := c, entries := b.entries.push e } := by
  unfold push at h
  split at h
  · simp at h
  · rename_i hroom
    rw [claim_eq] at h
    split at h
    · rename_i c hc
      exact ⟨Nat.not_le.mp hroom, c, hc, (Prod.mk.inj h).1.symm⟩
    · simp at h
    · simp at h

/-- Adding a proper entry keeps the invariant. -/
theorem IsSound.add {limit : Nat} {b b' : AsBuilder} (hb : b.IsSound limit) {e : AsEntry}
    (he : e.IsProper) (h : b.add e = .ok b') : b'.IsSound limit := by
  unfold AsBuilder.add at h
  split at h
  · rename_i b₁ hpush
    rw [Except.ok.injEq] at h
    obtain ⟨hroom, c, hc, rfl⟩ := of_push hpush
    subst h
    refine ⟨hb.limit_eq, ?_, ?_, ?_⟩
    · have := hb.limit_eq
      simp only [Array.size_push]
      omega
    · simpa using hb.holds.claim he.first_le_last hc
    · intro x hx
      rw [Array.toList_push] at hx
      rcases List.mem_append.mp hx with hx | hx
      · exact hb.proper x hx
      · rw [List.mem_singleton] at hx
        exact hx ▸ he
  · simp at h

end AsBuilder

theorem AsResources.isProper_finish {limit : Nat} {b : AsBuilder} (hb : b.IsSound limit) :
    b.finish.IsProper limit where
  length_le := by
    have := hb.size_le
    simpa [AsBuilder.finish] using this
  entries := hb.proper
  exclusive := by
    have hcompatible := hb.holds.compatible
    by_cases hnone : none ∈ b.entries.toList.map (·.span?)
    · left
      have hall := Claimed.eq_singleton_of_compatible hcompatible hnone
      obtain ⟨e, he, hspan⟩ := List.map_eq_singleton_iff.mp hall
      show b.entries.toList = _
      rw [he, AsEntry.eq_inherit_of_span? hspan]
    · right
      refine ⟨fun hinherit => hnone (List.mem_map.mpr ⟨_, hinherit, rfl⟩), ?_⟩
      exact (List.pairwise_map.mp hcompatible).imp fun h => AsEntry.not_holds_both h

/-! ### Reading -/

theorem AsRange.of_make {a b : AsNumber} {r : AsRange} (h : make a b = .ok r) :
    r = ⟨a, b⟩ ∧ a.toNat < b.toNat := by
  unfold make at h
  split at h
  · simp at h
  · rename_i hne
    split at h
    · simp at h
    · rename_i hle
      rw [Except.ok.injEq] at h
      have hneNat : a.toNat ≠ b.toNat := fun hab =>
        hne (congrArg AsNumber.mk (UInt32.toNat_inj.mp hab))
      exact ⟨h.symm, by omega⟩

theorem AsRange.ensures_readEnds : Ensures readEnds fun r => r.first.toNat < r.last.toNat := by
  refine Ensures.bind_any fun a => Ensures.bind_any fun b => ?_
  split
  · rename_i r hr
    obtain ⟨rfl, hlt⟩ := of_make hr
    exact Ensures.pure hlt
  · exact Ensures.throw

/-- Every entry that is read is proper. -/
theorem AsEntry.of_ofElement {e : Der.Element} {entry : AsEntry} (h : ofElement e = .ok entry) :
    entry.IsProper := by
  unfold ofElement at h
  split at h
  · obtain ⟨n, -, h⟩ := bind_eq_ok.mp h
    dsimp only at h
    split at h
    · exact absurd h throw_ne_ok
    · rename_i hn
      exact pure_eq_ok.mp h ▸ hn
  · split at h
    · obtain ⟨r, hr, rfl⟩ := map_eq_ok.mp h
      obtain ⟨-, t, ht, -⟩ := Der.Element.of_inside hr
      exact AsRange.ensures_readEnds _ _ _ ht
    · simp at h

namespace AsResources

theorem ensures_readEntry {limit : Nat} {b : AsBuilder} (hb : b.IsSound limit) :
    Ensures (readEntry b) fun o => ∀ b' ∈ o, b'.IsSound limit := by
  refine Ensures.bind_any fun o => ?_
  cases o with
  | none => exact Ensures.pure (by simp)
  | some e =>
    refine (Ensures.lift fun entry h => AsEntry.of_ofElement h).bind fun entry hentry => ?_
    refine (Ensures.lift fun b' h => hb.add hentry h).bind fun b' hb' => ?_
    exact Ensures.pure (by simpa using hb')

theorem ensures_readNumbers (options : DecodeOptions) :
    Ensures (readNumbers options) (·.IsProper options.maxAs) := by
  have hnew := AsBuilder.isSound_new options.maxAs
  refine Ensures.bind_any fun e => ?_
  split
  · refine Ensures.bind_any fun _ => ?_
    exact (Ensures.lift fun b' h => hnew.add (e := .inherit) trivial h).bind fun b' hb' =>
      Ensures.pure (isProper_finish hb')
  · split
    · refine (Der.ensures_inside (Der.ensures_repeated hnew fun b hb => ensures_readEntry hb)).bind
        fun b hb => ?_
      exact Ensures.pure (isProper_finish hb)
    · exact Ensures.throw

/-- All resources that are read are proper. -/
theorem ensures_read (options : DecodeOptions) :
    Ensures (read options) (·.IsProper options.maxAs) := by
  refine Der.ensures_inSequence ?_
  refine (Der.ensures_constructed? (ensures_readNumbers options)).bind fun numbers hnumbers => ?_
  refine Ensures.bind_any fun _ => Ensures.bind_any fun part => ?_
  split
  · exact Ensures.throw
  · cases numbers with
    | none => exact Ensures.pure (isProper_empty _)
    | some r => exact Ensures.pure (hnumbers r rfl)

end AsResources

end ResourcePki

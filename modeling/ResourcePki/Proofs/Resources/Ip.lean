import Mathlib.Data.List.Induction
import ResourcePki.Proofs.Address.Block
import ResourcePki.Proofs.Der.Ensures
import ResourcePki.Proofs.Resources.Claimed
import ResourcePki.Resources.IpDer

/-!
What the IP resources of a certificate can be.

The builder keeps one set of claims for each family. Its invariant ties them to the entries: the
claims of a family are those of its entries in order, so they are compatible in every pair however
the entries of both families are mixed. Since reading only ever pushes proper entries, the invariant
holds of everything that is read, and what it says of 128 bit ranges carries over to the sets of
addresses of a family.
-/

namespace ResourcePki

/-- The claim that an entry makes on its family. -/
def IpEntry.span? (e : IpEntry) : Option Span :=
  e.block?.map fun b => ⟨b.first.value, b.last.value⟩

/-- Inheriting is always proper, a block has to be so for its family. -/
def IpEntry.IsProper : IpEntry → Prop
  | .inherit _ => True
  | .block family b => b.IsProper family

theorem IpEntry.IsProper.first_le_last {e : IpEntry} (he : e.IsProper) :
    ∀ s ∈ e.span?, s.first ≤ s.last := by
  intro s hs
  cases e with
  | inherit family => simp [IpEntry.span?, IpEntry.block?] at hs
  | block family b =>
    simp only [IpEntry.span?, IpEntry.block?, Option.map_some, Option.mem_some_iff] at hs
    exact hs ▸ AddressBlock.IsProper.first_le_last he

/-- What holds of the IP resources of every accepted certificate. -/
structure IpResources.IsProper (limit : Nat) (r : IpResources) : Prop where
  length_le : r.entries.length ≤ limit
  /-- A family is inherited by its only entry, or its blocks have no address in common. -/
  exclusive : ∀ family, r.entries.filter (·.family = family) = [.inherit family] ∨
    .inherit family ∉ r.entries ∧
      (r.blocksOf family).Pairwise fun b c => ∀ n, ¬(b.Contains family n ∧ c.Contains family n)
  blocks : ∀ family b, .block family b ∈ r.entries → b.IsProper family

theorem IpResources.isProper_empty (limit : Nat) : empty.IsProper limit where
  length_le := Nat.zero_le _
  exclusive _ := Or.inr ⟨by simp [empty], List.Pairwise.nil⟩
  blocks := by simp [empty]

theorem IpResources.hasInherit_iff {r : IpResources} :
    r.hasInherit = true ↔ ∃ family, .inherit family ∈ r.entries := by
  rw [hasInherit, List.any_eq_true]
  constructor
  · rintro ⟨e, he, hinherit⟩
    cases e with
    | inherit family => exact ⟨family, he⟩
    | block family b => simp [IpEntry.isInherit] at hinherit
  · rintro ⟨family, hmem⟩
    exact ⟨_, hmem, rfl⟩

/-! ### The builder -/

namespace IpBuilder

/-- The claims that some entries make on a family. -/
def claimsOf (family : Family) (es : List IpEntry) : List (Option Span) :=
  (es.filter (·.family = family)).map (·.span?)

/-- The invariant of the builder. -/
structure IsSound (limit : Nat) (b : IpBuilder) : Prop where
  limit_eq : b.limit = limit
  size_le : b.entries.size ≤ limit
  holds : ∀ family, (b.claimed family).Holds (claimsOf family b.entries.toList)
  proper : ∀ e ∈ b.entries.toList, e.IsProper

theorem isSound_new (limit : Nat) : (new limit).IsSound limit where
  limit_eq := rfl
  size_le := Nat.zero_le _
  holds family := by
    cases family with
    | v4 => exact Claimed.holds_empty
    | v6 => exact Claimed.holds_empty
  proper := by simp [new]

theorem claim_eq (c : Claimed) (e : IpEntry) : claim c e = c.claim e.span? := by
  cases e with
  | inherit family => rfl
  | block family b => rfl

theorem claimed_setClaimed (b : IpBuilder) (f g : Family) (c : Claimed) :
    (b.setClaimed f c).claimed g = if f = g then c else b.claimed g := by
  cases f <;> cases g <;> rfl

theorem entries_setClaimed (b : IpBuilder) (f : Family) (c : Claimed) :
    (b.setClaimed f c).entries = b.entries := by
  cases f <;> rfl

theorem limit_setClaimed (b : IpBuilder) (f : Family) (c : Claimed) :
    (b.setClaimed f c).limit = b.limit := by
  cases f <;> rfl

@[simp] theorem setClaimed_claimed (b : IpBuilder) (f : Family) :
    b.setClaimed f (b.claimed f) = b := by
  cases f <;> rfl

theorem claimsOf_append (family : Family) (es : List IpEntry) (e : IpEntry) :
    claimsOf family (es ++ [e])
      = claimsOf family es ++ if e.family = family then [e.span?] else [] := by
  by_cases h : e.family = family <;> simp [claimsOf, h]

/-- What an accepted entry does: there is room for it, and its claim is added to its family. -/
theorem of_push {b b' : IpBuilder} {e : IpEntry} (h : b.push e = (b', .ok ())) :
    b.entries.size < b.limit ∧ ∃ c, (b.claimed e.family).claim e.span? = (c, .ok ()) ∧
      b' = setClaimed { b with entries := b.entries.push e } e.family c := by
  unfold push at h
  split at h
  · simp at h
  · rename_i hroom
    rw [claim_eq] at h
    split at h
    · rename_i c hc
      exact ⟨Nat.not_le.mp hroom, c, hc, (Prod.mk.inj h).1.symm⟩
    · simp at h
    · simp at h

/-- Pushing a proper entry keeps the invariant. -/
theorem IsSound.push {limit : Nat} {b b' : IpBuilder} (hb : b.IsSound limit) {e : IpEntry}
    (he : e.IsProper) (h : b.push e = (b', .ok ())) : b'.IsSound limit := by
  obtain ⟨hroom, c, hc, rfl⟩ := of_push h
  have hclaims : ∀ family, claimsOf family (b.entries.push e).toList
      = claimsOf family b.entries.toList ++ if e.family = family then [e.span?] else [] := by
    intro family
    rw [Array.toList_push, claimsOf_append]
  refine ⟨?_, ?_, fun family => ?_, ?_⟩
  · rw [limit_setClaimed]
    exact hb.limit_eq
  · rw [entries_setClaimed, Array.size_push]
    have := hb.limit_eq
    omega
  · rw [entries_setClaimed, claimed_setClaimed, hclaims]
    by_cases hf : e.family = family
    · -- the family of the entry has one claim more
      subst hf
      rw [if_pos rfl, if_pos rfl]
      exact (hb.holds e.family).claim he.first_le_last hc
    · rw [if_neg hf, if_neg hf, List.append_nil]
      exact hb.holds family
  · rw [entries_setClaimed, Array.toList_push]
    intro x hx
    rcases List.mem_append.mp hx with hx | hx
    · exact hb.proper x hx
    · rw [List.mem_singleton] at hx
      exact hx ▸ he

/-- A proper entry is accepted if there is room and its claim is compatible with the others. -/
theorem IsSound.exists_push {limit : Nat} {b : IpBuilder} (hb : b.IsSound limit) {e : IpEntry}
    (he : e.IsProper) (hroom : b.entries.size < limit)
    (hfree : ∀ x ∈ claimsOf e.family b.entries.toList, Claimed.Compatible x e.span?) :
    ∃ b', b.push e = (b', .ok ()) ∧ b'.entries.toList = b.entries.toList ++ [e] := by
  obtain ⟨c, hc⟩ := (hb.holds e.family).exists_claim he.first_le_last hfree
  refine ⟨setClaimed { b with entries := b.entries.push e } e.family c, ?_, ?_⟩
  · unfold IpBuilder.push
    rw [hb.limit_eq, if_neg (Nat.not_le.mpr hroom), claim_eq, hc]
  · rw [entries_setClaimed]
    exact Array.toList_push

/-- Entries that are proper, not too many and compatible in every pair are accepted. -/
theorem exists_foldlM_add {limit : Nat} {es : List IpEntry} (hlen : es.length ≤ limit)
    (hproper : ∀ e ∈ es, e.IsProper)
    (hcompatible : ∀ family, (claimsOf family es).Pairwise Claimed.Compatible) :
    ∃ b, es.foldlM add (new limit) = .ok b ∧ b.IsSound limit ∧ b.entries.toList = es := by
  induction es using List.reverseRecOn with
  | nil => exact ⟨new limit, rfl, isSound_new limit, rfl⟩
  | append_singleton es e ih =>
    rw [List.length_append, List.length_singleton] at hlen
    have hearlier : ∀ family, (claimsOf family es).Pairwise Claimed.Compatible := by
      intro family
      have h := hcompatible family
      rw [claimsOf_append] at h
      exact (List.pairwise_append.mp h).1
    obtain ⟨b, hb, hsound, hes⟩ := ih (by omega)
      (fun f hf => hproper f (List.mem_append_left _ hf)) hearlier
    have he : e.IsProper := hproper e (List.mem_append_right _ List.mem_cons_self)
    have hroom : b.entries.size < limit := by
      rw [← Array.length_toList, hes]
      omega
    have hfree : ∀ x ∈ claimsOf e.family b.entries.toList, Claimed.Compatible x e.span? := by
      intro x hx
      have h := hcompatible e.family
      rw [claimsOf_append, if_pos rfl, ← hes] at h
      exact (List.pairwise_append.mp h).2.2 x hx _ List.mem_cons_self
    obtain ⟨b', hpush, hentries⟩ := hsound.exists_push he hroom hfree
    have hadd : b.add e = .ok b' := by
      unfold add
      rw [hpush]
    refine ⟨b', ?_, hsound.push he hpush, ?_⟩
    · rw [List.foldlM_append]
      refine bind_eq_ok.mpr ⟨b, hb, ?_⟩
      rw [List.foldlM_cons]
      exact bind_eq_ok.mpr ⟨b', hadd, rfl⟩
    · rw [hentries, hes]

end IpBuilder

/-! ### From claims to addresses -/

namespace IpResources

/-- The claims for ranges are those of the blocks. -/
theorem claimsOf_eq_blocksOf (r : IpResources) (family : Family) :
    (IpBuilder.claimsOf family r.entries).filterMap id
      = (r.blocksOf family).map fun b => ⟨b.first.value, b.last.value⟩ := by
  obtain ⟨es⟩ := r
  induction es with
  | nil => rfl
  | cons e es ih =>
    simp only [IpBuilder.claimsOf, blocksOf] at ih ⊢
    by_cases h : e.family = family
    · cases e with
      | inherit f => simpa [h, IpEntry.span?, IpEntry.block?] using ih
      | block f b => simpa [h, IpEntry.span?, IpEntry.block?] using ih
    · simpa [h] using ih

theorem mem_blocksOf {r : IpResources} {family : Family} {b : AddressBlock} :
    b ∈ r.blocksOf family ↔ .block family b ∈ r.entries := by
  simp only [blocksOf, List.mem_filterMap]
  constructor
  · rintro ⟨e, he, hb⟩
    split at hb
    · rename_i hf
      cases e with
      | inherit f => simp [IpEntry.block?] at hb
      | block f c =>
        simp only [IpEntry.block?, Option.some.injEq] at hb
        simp only [IpEntry.family] at hf
        rwa [hb, hf] at he
    · simp at hb
  · intro h
    exact ⟨_, h, by simp [IpEntry.family, IpEntry.block?]⟩

/-- An entry that makes a claim for all of a family inherits it. -/
theorem eq_inherit_of_span? {e : IpEntry} {family : Family} (hf : e.family = family)
    (hs : e.span? = none) : e = .inherit family := by
  cases e with
  | inherit f =>
    simp only [IpEntry.family] at hf
    rw [hf]
  | block f b => simp [IpEntry.span?, IpEntry.block?] at hs

/-- An entry that inherits makes a claim for all of its family. -/
theorem none_mem_claimsOf {es : List IpEntry} {family : Family} (h : .inherit family ∈ es) :
    none ∈ IpBuilder.claimsOf family es :=
  List.mem_map.mpr ⟨.inherit family, List.mem_filter.mpr ⟨h, by simp [IpEntry.family]⟩, rfl⟩

/-- A claim for all of a family is made by its only entry. -/
theorem filter_eq_inherit {r : IpResources} {family : Family}
    (h : (IpBuilder.claimsOf family r.entries).Pairwise Claimed.Compatible)
    (hnone : none ∈ IpBuilder.claimsOf family r.entries) :
    r.entries.filter (·.family = family) = [.inherit family] := by
  obtain ⟨e, he, hspan⟩ :=
    List.map_eq_singleton_iff.mp (Claimed.eq_singleton_of_compatible h hnone)
  have hmem : e ∈ r.entries.filter (·.family = family) := by rw [he]; simp
  have hfamily : e.family = family := by simpa using (List.mem_filter.mp hmem).2
  rw [he, eq_inherit_of_span? hfamily hspan]

/-- Proper blocks with compatible claims have no address in common. -/
theorem pairwise_blocksOf {r : IpResources} {family : Family}
    (h : (IpBuilder.claimsOf family r.entries).Pairwise Claimed.Compatible)
    (hproper : ∀ b ∈ r.blocksOf family, b.IsProper family) :
    (r.blocksOf family).Pairwise fun b c => ∀ n, ¬(b.Contains family n ∧ c.Contains family n) := by
  have hranges : ((IpBuilder.claimsOf family r.entries).filterMap id).Pairwise Span.Apart := by
    rw [List.pairwise_filterMap]
    refine h.imp fun hxy s hs t ht => ?_
    simp only [id_eq] at hs ht
    subst hs ht
    exact hxy
  rw [claimsOf_eq_blocksOf, List.pairwise_map] at hranges
  exact hranges.imp_of_mem fun {c d} hc hd hcd =>
    AddressBlock.not_contains_both (hproper c hc) (hproper d hd) hcd

theorem isProper_finish {limit : Nat} {b : IpBuilder} (hb : b.IsSound limit) :
    b.finish.IsProper limit where
  length_le := by
    have := hb.size_le
    simpa [IpBuilder.finish] using this
  blocks family c hc := hb.proper _ hc
  exclusive family := by
    have hcompatible := (hb.holds family).compatible
    by_cases hnone : none ∈ IpBuilder.claimsOf family b.entries.toList
    · exact Or.inl (filter_eq_inherit hcompatible hnone)
    · refine Or.inr ⟨fun hinherit => hnone (none_mem_claimsOf hinherit), ?_⟩
      exact pairwise_blocksOf hcompatible fun x hx => hb.proper _ (mem_blocksOf.mp hx)

end IpResources

/-! ### Reading -/

theorem AddressPrefix.of_ofElement {family : Family} {e : Der.Element} {p : AddressPrefix}
    (h : ofElement family e = .ok p) :
    p.length ≤ family.octets * 8 ∧ Address.blockSize p.length ∣ p.address.value := by
  unfold ofElement at h
  obtain ⟨bits, -, h⟩ := bind_eq_ok.mp h
  split at h
  · rename_i q hq
    exact pure_eq_ok.mp h ▸ ofBitString_spec hq
  · exact absurd h throw_ne_ok

theorem AddressPrefix.ensures_read (family : Family) :
    Ensures (read family) fun p =>
      p.length ≤ family.octets * 8 ∧ Address.blockSize p.length ∣ p.address.value :=
  Ensures.bind_any fun _ => Ensures.lift fun _ h => of_ofElement h

theorem AddressRange.ensures_readEnds (family : Family) :
    Ensures (readEnds family) fun r => (AddressBlock.ofRange r).IsProper family := by
  refine (AddressPrefix.ensures_read family).bind fun p hp => ?_
  refine (AddressPrefix.ensures_read family).bind fun q hq => ?_
  split
  · rename_i r hr
    exact Ensures.pure (AddressBlock.isProper_ofRange hp.1 hp.2 hq.1 hr)
  · exact Ensures.throw

/-- Every block that is read is proper. -/
theorem AddressBlock.of_ofElement {family : Family} {e : Der.Element} {b : AddressBlock}
    (h : ofElement family e = .ok b) : b.IsProper family := by
  unfold ofElement at h
  split at h
  · obtain ⟨p, hp, rfl⟩ := map_eq_ok.mp h
    obtain ⟨hlen, hdvd⟩ := AddressPrefix.of_ofElement hp
    exact isProper_ofPrefix hlen hdvd
  · split at h
    · obtain ⟨r, hr, rfl⟩ := map_eq_ok.mp h
      obtain ⟨-, t, ht, -⟩ := Der.Element.of_inside hr
      exact AddressRange.ensures_readEnds family _ _ _ ht
    · simp at h

theorem IpBuilder.IsSound.add {limit : Nat} {b b' : IpBuilder} (hb : b.IsSound limit) {e : IpEntry}
    (he : e.IsProper) (h : b.add e = .ok b') : b'.IsSound limit := by
  unfold IpBuilder.add at h
  split at h
  · rename_i c hc
    rw [Except.ok.injEq] at h
    exact h ▸ hb.push he hc
  · simp at h

namespace IpResources

theorem ensures_readBlock {limit : Nat} (family : Family) {b : IpBuilder} (hb : b.IsSound limit) :
    Ensures (readBlock family b) fun o => ∀ b' ∈ o, b'.IsSound limit := by
  refine Ensures.bind_any fun o => ?_
  cases o with
  | none => exact Ensures.pure (by simp)
  | some e =>
    refine (Ensures.lift fun block h => AddressBlock.of_ofElement h).bind fun block hblock => ?_
    refine (Ensures.lift fun b' h => hb.add (e := .block family block) hblock h).bind
      fun b' hb' => ?_
    exact Ensures.pure (by simpa using hb')

theorem ensures_readFamily {limit : Nat} (options : DecodeOptions) {b : IpBuilder}
    (hb : b.IsSound limit) : Ensures (readFamily options b) (·.IsSound limit) := by
  refine Ensures.bind_any fun family => Ensures.bind_any fun e => ?_
  split
  · refine Ensures.bind_any fun _ => ?_
    exact Ensures.lift fun b' h => hb.add (e := .inherit family) trivial h
  · split
    · exact Der.ensures_inside (Der.ensures_repeated hb fun c hc => ensures_readBlock family hc)
    · exact Ensures.throw

/-- What is read are the entries of a builder that has kept its invariant. -/
theorem ensures_read_finish (options : DecodeOptions) :
    Ensures (read options) fun r => ∃ b : IpBuilder, b.IsSound options.maxIp ∧ b.finish = r :=
  Der.ensures_inSequence <|
    (Der.ensures_repeated (IpBuilder.isSound_new _) fun _ hb =>
      Der.ensures_inSequence? (ensures_readFamily options hb)).bind fun b hb =>
        Ensures.pure ⟨b, hb, rfl⟩

/-- All resources that are read are proper, however their entries are spread over the families. -/
theorem ensures_read (options : DecodeOptions) :
    Ensures (read options) (·.IsProper options.maxIp) :=
  (ensures_read_finish options).weaken fun _ ⟨_, hb, hr⟩ => hr ▸ isProper_finish hb

end IpResources

end ResourcePki

import ResourcePki.Proofs.Resources.IpWritten

/-!
The entries of IP resources by family.

Writing puts the entries of a family together, so what is read again is what has been written with
its entries grouped by family, version 4 first. The builder accepts them in that order too: what is
asked of a family depends on its own entries only.
-/

namespace ResourcePki

open Der

namespace IpResources

/-! ### Entries by family -/

/-- The entries of a family. -/
def entriesOf (r : IpResources) (family : Family) : List IpEntry :=
  r.entries.filter (·.family = family)

/-- The same entries with those of a family together, version 4 first. -/
def byFamily (r : IpResources) : IpResources :=
  ⟨r.entriesOf .v4 ++ r.entriesOf .v6⟩

variable {r : IpResources} {family : Family}

theorem mem_entriesOf {e : IpEntry} : e ∈ r.entriesOf family ↔ e ∈ r.entries ∧ e.family = family := by
  simp [entriesOf]

theorem entriesOf_byFamily (r : IpResources) (family : Family) :
    r.byFamily.entriesOf family = r.entriesOf family := by
  cases family with
  | v4 =>
    have hnone : (r.entriesOf .v6).filter (·.family = .v4) = [] :=
      List.filter_eq_nil_iff.mpr fun e he => by simp [(mem_entriesOf.mp he).2]
    rw [entriesOf, byFamily, List.filter_append, hnone, List.append_nil, entriesOf,
      List.filter_filter]
    simp
  | v6 =>
    have hnone : (r.entriesOf .v4).filter (·.family = .v6) = [] :=
      List.filter_eq_nil_iff.mpr fun e he => by simp [(mem_entriesOf.mp he).2]
    rw [entriesOf, byFamily, List.filter_append, hnone, List.nil_append, entriesOf,
      List.filter_filter]
    simp

theorem perm_byFamily (r : IpResources) : r.byFamily.entries.Perm r.entries := by
  have hother : r.entriesOf .v6 = r.entries.filter fun e => !decide (e.family = .v4) := by
    refine List.filter_congr fun e _ => ?_
    cases e.family <;> rfl
  rw [byFamily, hother]
  exact List.filter_append_perm _ _

theorem hasFamily_iff : r.hasFamily family = true ↔ r.entriesOf family ≠ [] := by
  simp [hasFamily, entriesOf, List.filter_eq_nil_iff]

theorem entriesOf_eq_nil (h : r.hasFamily family = false) : r.entriesOf family = [] := by
  by_contra hne
  rw [hasFamily_iff.mpr hne] at h
  exact Bool.noConfusion h

theorem isInherited_iff : r.isInherited family = true ↔ .inherit family ∈ r.entriesOf family := by
  simp only [isInherited, List.any_eq_true, Bool.and_eq_true, beq_iff_eq]
  constructor
  · rintro ⟨e, he, hinherit, hfamily⟩
    cases e with
    | inherit f => exact mem_entriesOf.mpr ⟨hfamily ▸ he, rfl⟩
    | block f b => simp [IpEntry.isInherit] at hinherit
  · exact fun h => ⟨_, (mem_entriesOf.mp h).1, rfl, rfl⟩

theorem blocksOf_eq (r : IpResources) (family : Family) :
    r.blocksOf family = (r.entriesOf family).filterMap (·.block?) := by
  rw [blocksOf, entriesOf, List.filterMap_filter]
  simp

/-- What is written depends on the entries of each family only. -/
theorem encode?_congr {r s : IpResources} (h : ∀ family, r.entriesOf family = s.entriesOf family) :
    r.encode? = s.encode? := by
  have hhas : r.hasFamily = s.hasFamily := funext fun family => by
    rw [Bool.eq_iff_iff, hasFamily_iff, hasFamily_iff, h]
  have hinherited : r.isInherited = s.isInherited := funext fun family => by
    rw [Bool.eq_iff_iff, isInherited_iff, isInherited_iff, h]
  have hblocks : r.blocksOf = s.blocksOf := funext fun family => by
    rw [blocksOf_eq, blocksOf_eq, h]
  unfold encode? isEncodable encode encodeFamily familyLength familyContentLength blocksLength
  rw [hhas, hinherited, hblocks]

/-- Entries of a family that do not inherit it are its blocks. -/
theorem eq_map_block : ∀ {es : List IpEntry},
    (∀ e ∈ es, e.family = family ∧ e ≠ .inherit family) →
      es = (es.filterMap (·.block?)).map (.block family)
  | [], _ => rfl
  | .inherit f :: es, h => by
    obtain ⟨hfamily, hne⟩ := h _ List.mem_cons_self
    exact absurd (congrArg IpEntry.inherit hfamily) hne
  | .block f b :: es, h => by
    obtain ⟨hfamily, -⟩ := h _ List.mem_cons_self
    have ih := eq_map_block fun e he => h e (List.mem_cons_of_mem _ he)
    have hhead : (IpEntry.block f b).block? = some b := rfl
    rw [List.filterMap_cons_some hhead, List.map_cons, ← ih]
    exact congrArg (fun f => IpEntry.block f b :: es) hfamily

theorem entriesOf_eq_blocks (h : .inherit family ∉ r.entries) :
    r.entriesOf family = (r.blocksOf family).map (.block family) := by
  rw [blocksOf_eq]
  refine eq_map_block fun e he => ?_
  obtain ⟨hmem, hfamily⟩ := mem_entriesOf.mp he
  exact ⟨hfamily, fun hinherit => h (hinherit ▸ hmem)⟩

/-! ### Taking the written form -/

/-- The families that have entries. -/
def families (r : IpResources) : List Family :=
  [.v4, .v6].filter r.hasFamily

theorem contentWritten_eq (r : IpResources) :
    r.contentWritten
      = r.families.flatMap fun f => sequenceValue (f.encode ++ r.choiceWritten f) := by
  cases h4 : r.hasFamily .v4 <;> cases h6 : r.hasFamily .v6 <;>
    simp [contentWritten, familyWritten, families, h4, h6]

variable {b b' : IpBuilder}

/-- Going through the families adds the entries by family. -/
theorem foldlM_families (h : r.byFamily.entries.foldlM IpBuilder.add b = .ok b') :
    r.families.foldlM (fun b f => (r.entriesOf f).foldlM IpBuilder.add b) b = .ok b' := by
  rw [byFamily, List.foldlM_append] at h
  cases h4 : r.hasFamily .v4 <;> cases h6 : r.hasFamily .v6
  · simpa [families, h4, h6, entriesOf_eq_nil h4, entriesOf_eq_nil h6] using h
  · simpa [families, h4, h6, entriesOf_eq_nil h4] using h
  · simpa [families, h4, h6, entriesOf_eq_nil h6] using h
  · simpa [families, h4, h6] using h

theorem length_choiceWritten_le (h : r.hasFamily family = true) :
    (r.choiceWritten family).length ≤ (r.familyWritten family).length := by
  rw [familyWritten, if_pos h, length_sequenceValue, List.length_append]
  unfold valueLength
  omega

theorem length_familyWritten_le (r : IpResources) (family : Family) :
    (r.familyWritten family).length ≤ r.contentWritten.length := by
  rw [contentWritten, List.length_append]
  cases family with
  | v4 => exact Nat.le_add_right _ _
  | v6 => exact Nat.le_add_left _ _

variable {limit : Nat} {options : DecodeOptions}

/-- The written entries of a family are added again. -/
theorem takesAll_readFamily (hr : r.IsProper limit) (hhas : r.hasFamily family = true)
    (hlen : r.contentWritten.length < lengthBound)
    (hadd : (r.entriesOf family).foldlM IpBuilder.add b = .ok b') :
    TakesAll (readFamily options b) (family.encode ++ r.choiceWritten family) b' := by
  rcases hr.exclusive family with hinherit | ⟨hnone, -⟩
  · have hmem : .inherit family ∈ r.entriesOf family := by
      rw [entriesOf, hinherit]
      exact List.mem_cons_self
    have hinherited := isInherited_iff.mpr hmem
    rw [entriesOf, hinherit, List.foldlM_cons] at hadd
    obtain ⟨c, hc, hnil⟩ := bind_eq_ok.mp hadd
    obtain rfl := pure_eq_ok.mp hnil
    rw [choiceWritten, if_pos hinherited]
    exact takesAll_readFamily_inherit hc
  · have hinherited : ¬r.isInherited family = true := fun h =>
      hnone (mem_entriesOf.mp (isInherited_iff.mp h)).1
    rw [entriesOf_eq_blocks hnone] at hadd
    have hchoice := length_choiceWritten_le hhas
    have hfamily := r.length_familyWritten_le family
    have heq : r.choiceWritten family
        = sequenceValue ((r.blocksOf family).flatMap (·.written)) := if_neg hinherited
    rw [heq, length_sequenceValue, valueLength] at hchoice
    rw [heq]
    refine takesAll_readFamily_blocks (fun block hblock => ?_) (by omega) hadd
    exact hr.blocks family block (mem_blocksOf.mp hblock)

theorem carries_readFamily (hr : r.IsProper limit) (hhas : r.hasFamily family = true)
    (hlen : r.contentWritten.length < lengthBound) :
    Carries (fun b => inSequence? (readFamily options b))
      (fun b f => (r.entriesOf f).foldlM IpBuilder.add b)
      (fun f => sequenceValue (f.encode ++ r.choiceWritten f)) family := by
  refine ⟨List.cons_ne_nil _ _, fun b b' hadd => ?_⟩
  refine takes_inSequence? (takesAll_readFamily hr hhas hlen hadd) ?_
  have hfamily := r.length_familyWritten_le family
  rw [familyWritten, if_pos hhas, length_sequenceValue, valueLength]
    at hfamily
  omega

theorem takesAll_inFamily_nil (b : IpBuilder) :
    TakesAll (inSequence? (readFamily options b)) [] none :=
  rfl

/-- Compatible entries are accepted in the order of their families as well. -/
theorem exists_add_byFamily (hr : r.IsProper limit)
    (hclaims : ∀ f, (IpBuilder.claimsOf f r.entries).Pairwise Claimed.Compatible) :
    ∃ b, r.byFamily.entries.foldlM IpBuilder.add (.new limit) = .ok b ∧ b.finish = r.byFamily := by
  have hperm := r.perm_byFamily
  have hlen : r.byFamily.entries.length ≤ limit := hperm.length_eq ▸ hr.length_le
  have hproper : ∀ e ∈ r.byFamily.entries, e.IsProper := by
    intro e he
    cases e with
    | inherit f => trivial
    | block f block => exact hr.blocks f block (hperm.mem_iff.mp he)
  have hcompatible : ∀ f,
      (IpBuilder.claimsOf f r.byFamily.entries).Pairwise Claimed.Compatible := by
    intro f
    have heq : IpBuilder.claimsOf f r.byFamily.entries = IpBuilder.claimsOf f r.entries :=
      congrArg (List.map IpEntry.span?) (r.entriesOf_byFamily f)
    rw [heq]
    exact hclaims f
  obtain ⟨b, hb, -, hentries⟩ := IpBuilder.exists_foldlM_add hlen hproper hcompatible
  exact ⟨b, hb, congrArg IpResources.mk hentries⟩

/-- The written form is read as the entries by family. -/
theorem takes_read (hr : r.IsProper options.maxIp)
    (hclaims : ∀ f, (IpBuilder.claimsOf f r.entries).Pairwise Claimed.Compatible)
    (hlen : r.contentWritten.length < lengthBound) : Takes (read options) r.written r.byFamily := by
  obtain ⟨b, hb, hfinish⟩ := exists_add_byFamily hr hclaims
  have hfamilies : TakesAll (repeated (fun b => inSequence? (readFamily options b))
      (IpBuilder.new options.maxIp)) r.contentWritten b := by
    rw [contentWritten_eq]
    refine takesAll_repeated takesAll_inFamily_nil (fun f hf => ?_) (foldlM_families hb)
    exact carries_readFamily hr (List.mem_filter.mp hf).2 hlen
  refine takes_inSequence (hfamilies.bind ?_) hlen
  rw [hfinish]
  rfl

end IpResources

end ResourcePki

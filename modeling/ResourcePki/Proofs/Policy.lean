import ResourcePki.Policy
import ResourcePki.Proofs.Certificate.Fields

/-!
The policies that an extension can name.

A list of policies is read as it has been written, with the qualifiers that a policy has or without
any, and nothing in it is judged while it is read. What the list amounts to is then told from its
only policy: it is the one of resource certificates, not qualified at all or qualified once by a
text. A list of qualifiers that is there but empty is not the same as one that is missing.
-/

namespace ResourcePki

open Der

/-! ### Written lists -/

namespace PolicyInformation

variable {p : PolicyInformation} {ps : List PolicyInformation} {q : ObjectId × Octets}
  {qs : List (ObjectId × Octets)}

/-- What a qualifier is made of. -/
def qualifierContent (q : ObjectId × Octets) : Octets :=
  objectIdValue q.1 ++ q.2

/-- A list of qualifiers as it is written. -/
def encodeQualifiers (qs : List (ObjectId × Octets)) : Octets :=
  sequenceValue (qs.flatMap fun q => sequenceValue (qualifierContent q))

/-- What the policy is made of. -/
def content (p : PolicyInformation) : Octets :=
  objectIdValue p.id ++ p.qualifiers.elim [] encodeQualifiers

/-- A list of policies as it is written. -/
def encodeList (ps : List PolicyInformation) : Octets :=
  sequenceValue (ps.flatMap fun p => sequenceValue p.content)

/-- The identifier is one, as are those of the qualifiers, each of which has one value. -/
structure IsProper (p : PolicyInformation) : Prop where
  id : p.id.IsProper
  qualifiers : ∀ qs ∈ p.qualifiers, ∀ q ∈ qs, q.1.IsProper ∧ IsWellFormed q.2

theorem takesAll_readQualifier (hid : q.1.IsProper) (hwell : IsWellFormed q.2)
    (hlen : (qualifierContent q).length < lengthBound) :
    TakesAll readQualifier (qualifierContent q) q := by
  have hoctets : q.1.octets.length ≤ (objectIdValue q.1).length := length_le_length_value _ _
  rw [qualifierContent, List.length_append] at hlen
  have hvalue := takesAll_captureAll (List.forall_mem_singleton.mpr hwell)
  rw [List.flatten_singleton] at hvalue
  exact (takes_objectId hid (by omega)).bind_all (hvalue.bind rfl)

theorem takesAll_readParts (h : p.IsProper) (hlen : p.content.length < lengthBound) :
    TakesAll readParts p.content p := by
  obtain ⟨id, qualifiers⟩ := p
  have hoctets : id.octets.length ≤ (objectIdValue id).length := length_le_length_value _ _
  rw [content, List.length_append] at hlen
  refine (takes_objectId h.id (by dsimp only at hlen ⊢; omega)).bind_all ?_
  cases qualifiers with
  | none => exact rfl
  | some qs =>
    have hqs : (qs.flatMap fun q => sequenceValue (qualifierContent q)).length
        ≤ (encodeQualifiers qs).length := length_le_length_value _ _
    dsimp only [Option.elim_some] at hlen ⊢
    refine (takes_inSequence? (takesAll_sequences (by omega) fun q hq hq' => ?_)
      (by omega)).all.bind rfl
    obtain ⟨hid, hwell⟩ := h.qualifiers qs rfl q hq
    exact takesAll_readQualifier hid hwell hq'

/-- A list is read as it has been written. -/
theorem decode_encodeList (h : ∀ p ∈ ps, p.IsProper)
    (hlen : (encodeList ps).length < lengthBound) : decode readList (encodeList ps) = .ok ps := by
  have hcontent := length_lt_of_value hlen
  exact (takes_inSequence (takesAll_sequences hcontent fun p hp hp' =>
    takesAll_readParts (h p hp) hp') hcontent).decode

/-- The value of a qualifier is not longer than the list that it stands in. -/
theorem length_qualifier_le (hp : p ∈ ps) (hqs : p.qualifiers = some qs) (hq : q ∈ qs) :
    q.2.length ≤ (encodeList ps).length :=
  calc q.2.length
    _ ≤ (qualifierContent q).length := by simp [qualifierContent]
    _ ≤ (sequenceValue (qualifierContent q)).length := length_le_length_value _ _
    _ ≤ (qs.flatMap fun q => sequenceValue (qualifierContent q)).length :=
      length_sequenceValue_le_of_mem hq
    _ ≤ (encodeQualifiers qs).length := length_le_length_value _ _
    _ ≤ p.content.length := by simp [content, hqs]
    _ ≤ (sequenceValue p.content).length := length_le_length_value _ _
    _ ≤ (ps.flatMap fun p => sequenceValue p.content).length :=
      length_sequenceValue_le_of_mem hp
    _ ≤ (encodeList ps).length := length_le_length_value _ _

end PolicyInformation

/-! ### What a list amounts to -/

namespace Policy

open PolicyInformation

variable {policies : List PolicyInformation} {policy : Policy} {v text : Octets}

/-- A value is a text. -/
def IsText (v text : Octets) : Prop :=
  v = value Tag.ia5String text ∧ ∀ b ∈ text, b < 0x80

/-- A policy is qualified once, by a pointer to the text, or not at all if there is no text. -/
def IsQualifiedBy (p : PolicyInformation) : Option Octets → Prop
  | none => p.qualifiers = none
  | some text => ∃ v, p.qualifiers = some [(ObjectId.practiceStatement, v)] ∧ IsText v text

theorem opens_ia5String : Opens Tag.ia5String Tag.ia5String false :=
  ⟨by decide, rfl, rfl, by decide⟩

theorem reads_readText : Reads readText fun text bs => IsText bs text := by
  refine (reads_elementOf (S := fun content text ys => content = text ∧ ys = [] ∧
    ∀ b ∈ text, b < 0x80) (by decide) fun e => Reads.lift fun text htext => ?_).weaken ?_
  · obtain ⟨hcontent, hascii⟩ := Element.ia5String_eq_ok.mp htext
    exact ⟨_, hcontent, rfl, rfl, hascii⟩
  · rintro text bs ⟨content, ys, rfl, rfl, rfl, hascii⟩
    exact ⟨List.append_nil _, hascii⟩

theorem takes_readText (hlen : text.length < lengthBound) (hascii : ∀ b ∈ text, b < 0x80) :
    Takes readText (value Tag.ia5String text) text :=
  (takes_elementOf opens_ia5String hlen).bind_nil
    (Takes.lift (Element.ia5String_eq_ok.mpr ⟨Element.primitive_ofContent, hascii⟩))

/-- A well-formed value is read as a text iff it is one. -/
theorem decode_readText_eq_ok (hwell : IsWellFormed v) (hlen : v.length < lengthBound) :
    decode readText v = .ok text ↔ IsText v text := by
  constructor
  · intro h
    obtain ⟨bs, hprefix, rfl, hascii⟩ := reads_readText.of_decode h
    have htext := length_le_length_value Tag.ia5String text
    have hvalue : IsWellFormed (value Tag.ia5String text) :=
      isWellFormed_value opens_ia5String (by have := hprefix.length_le; omega)
    exact ⟨(hvalue.eq_of_prefix hwell hprefix).symm, hascii⟩
  · rintro ⟨rfl, hascii⟩
    exact (takes_readText (length_lt_of_value hlen) hascii).decode

/-- A list amounts to a policy iff its only item is the policy of resource certificates, qualified
    as this one says. -/
theorem ofList_eq_ok (hvalues : ∀ p ∈ policies, ∀ qs, p.qualifiers = some qs → ∀ q ∈ qs,
    IsWellFormed q.2 ∧ q.2.length < lengthBound) :
    ofList policies = .ok policy ↔ ∃ p, policies = [p] ∧ p.id = ObjectId.resourcePolicy ∧
      IsQualifiedBy p policy.practiceStatement := by
  constructor
  · intro h
    unfold ofList at h
    split at h
    · rename_i p
      rw [ite_error_eq_ok, Decidable.not_not] at h
      obtain ⟨hid, h⟩ := h
      refine ⟨p, rfl, hid, ?_⟩
      split at h
      · rename_i hnone
        obtain rfl := Except.ok.inj h
        exact hnone
      · rename_i id v hone
        rw [ite_error_eq_ok, Decidable.not_not] at h
        obtain ⟨rfl, h⟩ := h
        split at h
        · rename_i text htext
          obtain rfl := Except.ok.inj h
          obtain ⟨hwell, hlen⟩ :=
            hvalues p List.mem_cons_self _ hone (ObjectId.practiceStatement, v) List.mem_cons_self
          exact ⟨v, hone, (decode_readText_eq_ok hwell hlen).mp htext⟩
        · simp at h
      · simp at h
    · simp at h
  · rintro ⟨p, rfl, hid, hqualified⟩
    obtain ⟨statement⟩ := policy
    rw [ofList, if_neg (not_not_intro hid)]
    cases statement with
    | none =>
      have hnone : p.qualifiers = none := hqualified
      rw [hnone]
    | some text =>
      obtain ⟨v, hone, htext⟩ := hqualified
      obtain ⟨hwell, hlen⟩ := hvalues p List.mem_cons_self _ hone _ List.mem_cons_self
      simp only [hone, ne_eq, not_true_eq_false, if_false,
        (decode_readText_eq_ok hwell hlen).mpr htext]

variable {e : Extension}

theorem ofExtension_eq_ok (hproper : ∀ p ∈ policies, p.IsProper)
    (hvalue : e.value = encodeList policies) (hlen : e.value.length < lengthBound) :
    ofExtension e = .ok policy ↔ e.critical = true ∧ ∃ p, policies = [p] ∧
      p.id = ObjectId.resourcePolicy ∧ IsQualifiedBy p policy.practiceStatement := by
  have hvalues : ∀ p ∈ policies, ∀ qs, p.qualifiers = some qs → ∀ q ∈ qs,
      IsWellFormed q.2 ∧ q.2.length < lengthBound := by
    intro p hp qs hqs q hq
    have hle := length_qualifier_le hp hqs hq
    exact ⟨((hproper p hp).qualifiers qs hqs q hq).2, Nat.lt_of_le_of_lt hle (hvalue ▸ hlen)⟩
  have hread : e.decodeValue readList = .ok policies := by
    rw [hvalue] at hlen
    rw [Extension.decodeValue, hvalue]
    exact decode_encodeList hproper hlen
  rw [ofExtension, Extension.requireCritical_bind_eq_ok, bind_eq_ok, hread]
  simp only [lift_decoding_eq_ok, lift_inspection_eq_ok, Except.ok.injEq, exists_eq_left',
    ofList_eq_ok hvalues]

/-- An extension names a policy iff it is critical, names one policy only, that of resource
    certificates, and this is not qualified or qualified once by a text, which is then what the
    policy points to. A list of qualifiers may be missing, but not empty. -/
theorem ofExtension_exact (hproper : ∀ p ∈ policies, p.IsProper)
    (hvalue : e.value = encodeList policies) (hlen : e.value.length < lengthBound) :
    ((∃ policy, ofExtension e = .ok policy) ↔ e.critical = true ∧ ∃ p, policies = [p] ∧
      p.id = ObjectId.resourcePolicy ∧ ∃ statement, IsQualifiedBy p statement) ∧
    (∀ policy, ofExtension e = .ok policy →
      ∃ p, policies = [p] ∧ IsQualifiedBy p policy.practiceStatement) ∧
    ((∃ p ∈ policies, p.qualifiers = some []) → ∃ err, ofExtension e = .error err) := by
  have hok := fun policy : Policy => @ofExtension_eq_ok _ policy _ hproper hvalue hlen
  refine ⟨⟨?_, ?_⟩, fun policy h => ?_, ?_⟩
  · rintro ⟨policy, h⟩
    obtain ⟨hcritical, p, hp, hid, hqualified⟩ := (hok policy).mp h
    exact ⟨hcritical, p, hp, hid, _, hqualified⟩
  · rintro ⟨hcritical, p, hp, hid, statement, hqualified⟩
    exact ⟨⟨statement⟩, (hok _).mpr ⟨hcritical, p, hp, hid, hqualified⟩⟩
  · obtain ⟨-, p, hp, -, hqualified⟩ := (hok policy).mp h
    exact ⟨p, hp, hqualified⟩
  · rintro ⟨p, hp, hempty⟩
    cases h : ofExtension e with
    | error err => exact ⟨err, rfl⟩
    | ok policy =>
      obtain ⟨-, p', rfl, -, hqualified⟩ := (hok policy).mp h
      obtain rfl := List.mem_singleton.mp hp
      obtain ⟨statement⟩ := policy
      cases statement with
      | none => exact absurd (hempty.symm.trans hqualified) (by simp)
      | some text =>
        obtain ⟨v, hone, -⟩ := hqualified
        exact absurd (hempty.symm.trans hone) (by simp)

/-- The policy of resource certificates with a pointer to a practice statement. -/
def samplePolicy : PolicyInformation where
  id := ObjectId.resourcePolicy
  qualifiers := some
    [(ObjectId.practiceStatement, value Tag.ia5String (Octets.ofAscii "https://host/cps.html"))]

theorem ofExtension_exact_sample : ∃ policy,
    ofExtension ⟨ObjectId.certificatePolicies, true, encodeList [samplePolicy]⟩ = .ok policy ∧
      policy.practiceStatement = some (Octets.ofAscii "https://host/cps.html") := by
  have hproper : ∀ p ∈ [samplePolicy], p.IsProper := by
    refine List.forall_mem_singleton.mpr ⟨by decide, fun qs hqs => ?_⟩
    obtain rfl := Option.some.inj hqs
    exact List.forall_mem_singleton.mpr ⟨by decide, by decide⟩
  obtain ⟨hiff, hpoints, -⟩ := ofExtension_exact hproper
    (e := ⟨ObjectId.certificatePolicies, true, encodeList [samplePolicy]⟩) rfl (by decide +kernel)
  obtain ⟨policy, hpolicy⟩ := hiff.mpr ⟨rfl, samplePolicy, rfl, rfl,
    some (Octets.ofAscii "https://host/cps.html"), _, rfl, rfl, by decide +kernel⟩
  refine ⟨policy, hpolicy, ?_⟩
  obtain ⟨p, hp, hqualified⟩ := hpoints policy hpolicy
  obtain rfl := (List.cons.inj hp).1
  obtain ⟨statement⟩ := policy
  cases statement with
  | none => exact absurd hqualified (by simp [IsQualifiedBy, samplePolicy])
  | some text =>
    obtain ⟨v, hone, rfl, -⟩ := hqualified
    simp only [samplePolicy, Option.some.injEq, List.cons.injEq, Prod.mk.injEq] at hone
    rw [(value_inj hone.1.2).2]

end Policy

end ResourcePki

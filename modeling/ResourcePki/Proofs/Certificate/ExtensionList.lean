import ResourcePki.Proofs.Certificate.Decoded
import ResourcePki.Proofs.Der.Primitive

/-!
Written lists of extensions.

An extension that has been written is read again: a mark that it is critical is only written if it
is, and a missing one counts as one that does not hold. Reading a list adds one extension after the
other to those before it and stops at the first one of a kind that is among them, so a written list
comes back as it is or not at all.

The mark may also have been given where it does not hold. A list that has been read is therefore not
longer when it is written than it was, which is why it can be written and read again.
-/

namespace ResourcePki.Extension

open Der

variable {e : Extension} {es before : List Extension}

/-! ### One extension -/

/-- What the extension is made of. -/
def content (e : Extension) : Octets :=
  objectIdValue e.id ++ (if e.critical then trueValue else []) ++ octetStringValue e.value

theorem encode_eq (e : Extension) : e.encode = sequenceValue e.content := rfl

theorem takesAll_readParts (hproper : e.id.IsProper) (hlen : e.content.length < lengthBound) :
    TakesAll readParts e.content e := by
  obtain ⟨id, critical, v⟩ := e
  have hid : id.octets.length ≤ (objectIdValue id).length := length_le_length_value _ _
  have hv : v.length ≤ (octetStringValue v).length := length_le_length_value _ _
  rw [content, List.length_append, List.length_append] at hlen
  dsimp only at hlen
  rw [content, List.append_assoc]
  refine (takes_objectId hproper (by dsimp only; omega)).bind_all ?_
  have hstring : Takes octetString (octetStringValue v) v := takes_octetString (by omega)
  have hvalue := hstring.bind_nil (f := fun v => (pure ⟨id, critical, v⟩ : Reader Extension))
    Takes.pure
  cases critical with
  | true => exact (takes_boolean? true).bind_all hvalue.all
  | false =>
    have hnone : boolean? ⟨octetStringValue v ++ [], some 0⟩
        = .ok (none, ⟨octetStringValue v ++ [], some 0⟩) :=
      run_bind_eq_ok.mpr ⟨none, _, elementOf?_of_ne opens_octetString (by decide) _ _ _, rfl⟩
    rw [List.append_nil] at hnone
    exact run_bind_eq_ok.mpr ⟨none, _, hnone, hvalue.all⟩

/-- The parts of an extension are not longer when they are written than what they have been read
    from. -/
theorem reads_readParts :
    Reads readParts fun e bs => e.id.IsProper ∧ e.content.length ≤ bs.length := by
  refine (reads_objectId.bind fun id => reads_boolean?.bind fun critical => reads_octetString.bind
    (S := fun v e bs => e = ⟨id, critical.getD false, v⟩ ∧ bs = [])
    fun v => Reads.pure ⟨rfl, rfl⟩).weaken ?_
  rintro e bs ⟨id, xs, ys, rfl, ⟨rfl, hproper⟩, critical, xs', ys', rfl, rfl, v, xs'', ys'', rfl,
    rfl, rfl, rfl⟩
  refine ⟨hproper, ?_⟩
  rcases critical with _ | _ | _ <;> simp [content, booleanValue, trueValue]

/-! ### A list of extensions -/

/-- The list is short enough for the length in front of it, which has four octets at most. -/
def Fits (es : List Extension) : Prop :=
  (es.flatMap encode).length < lengthBound

/-- Adds an extension to those before it, unless one of them is of its kind. -/
def add (before : List Extension) (e : Extension) : Except DecodeError (List Extension) :=
  if before.any (·.id == e.id) then .error .duplicateExtension else .ok (before ++ [e])

theorem meets_readNext (hproper : e.id.IsProper) (hlen : e.content.length < lengthBound) :
    Meets readNext add encode e := by
  refine ⟨sequenceValue_ne_nil _, fun before after missing => ?_⟩
  have hparts : (⟨e.content, some 0⟩ : Input).readAll readParts = .ok e := by
    have hread : readParts ⟨e.content, some 0⟩ = _ := takesAll_readParts hproper hlen
    rw [Input.readAll, hread]
    rfl
  show (inSequence? readParts ⟨sequenceValue e.content ++ after, missing⟩ >>= _) = _
  rw [inSequence?_sequenceValue hlen, hparts]
  show (if before.any (·.id == e.id) then throw .duplicateExtension
    else (pure (some (before ++ [e])) : Reader (Option (List Extension)))) ⟨after, missing⟩ = _
  unfold add
  split
  · rfl
  · rfl

/-- A list is read as its extensions are added one after the other. -/
theorem readList_encodeList (hproper : ∀ e ∈ es, e.id.IsProper) (hfits : Fits es) (after : Octets)
    (missing : Option Nat) :
    readList ⟨encodeList es ++ after, missing⟩
      = (es.foldlM add []).map fun es => (es, ⟨after, missing⟩) := by
  have hend : ∀ before, TakesAll (readNext before) [] none := fun _ => rfl
  rw [readList, encodeList, inSequence_sequenceValue hfits]
  refine congrArg (Except.map _) (readAll_repeated hend (fun e he => ?_) [])
  have hvalue : e.encode.length ≤ (es.flatMap encode).length := length_le_flatMap_of_mem he
  have hcontent : e.content.length ≤ e.encode.length := length_le_length_value _ _
  exact meets_readNext (hproper e he)
    (Nat.lt_of_le_of_lt hcontent (Nat.lt_of_le_of_lt hvalue hfits))

/-- Extensions of different kinds are all added. -/
theorem foldlM_add_of_distinct : ∀ {es before : List Extension}, Distinct (before ++ es) →
    es.foldlM add before = .ok (before ++ es)
  | [], before, _ => by
    rw [List.append_nil]
    rfl
  | e :: es, before, h => by
    rw [List.append_cons] at h ⊢
    have hnew : ¬before.any (·.id == e.id) = true := by
      intro hany
      obtain ⟨f, hf, hid⟩ := List.any_eq_true.mp hany
      have hne := (List.pairwise_append.mp (List.pairwise_append.mp h).1).2.2 f hf e
        List.mem_cons_self
      exact hne (eq_of_beq hid)
    rw [List.foldlM_cons, add, if_neg hnew]
    exact foldlM_add_of_distinct h

/-- The first one of a kind that is there before stops the reading. -/
theorem foldlM_add_of_not_distinct : ∀ {es before : List Extension}, Distinct before →
    ¬Distinct (before ++ es) → es.foldlM add before = .error .duplicateExtension
  | [], before, hbefore, h => absurd (by rwa [List.append_nil]) h
  | e :: es, before, hbefore, h => by
    rw [List.append_cons] at h
    rw [List.foldlM_cons, add]
    split
    · rfl
    · rename_i hnew
      refine foldlM_add_of_not_distinct ?_ h
      refine List.pairwise_append.mpr ⟨hbefore, List.pairwise_singleton _ _, fun f hf e' he' => ?_⟩
      obtain rfl := List.mem_singleton.mp he'
      exact fun hid => hnew (List.any_eq_true.mpr ⟨f, hf, by simp [hid]⟩)

/-! ### Lists that have been read -/

/-- A list has been extended by what has been read, and what is written of this is not longer. -/
def Extends (before after : List Extension) (bs : Octets) : Prop :=
  ∃ es, after = before ++ es ∧ (∀ e ∈ es, e.id.IsProper) ∧ (es.flatMap encode).length ≤ bs.length

theorem reads_readNext (before : List Extension) :
    Reads (readNext before) fun o bs => Extends before (o.getD before) bs := by
  refine ((reads_inSequence? reads_readParts).bind
    (S := fun o o' ys => ys = [] ∧ o'.getD before = before ++ o.toList) fun o => ?_).weaken ?_
  · cases o with
    | none => exact Reads.pure ⟨rfl, (List.append_nil _).symm⟩
    | some e => exact Reads.ite (fun _ => Reads.throw) fun _ => Reads.pure ⟨rfl, rfl⟩
  · rintro o' bs ⟨o, xs, ys, rfl, hxs, rfl, ho'⟩
    refine ⟨o.toList, ho', ?_⟩
    cases o with
    | none => exact ⟨by simp, by simp⟩
    | some e =>
      obtain ⟨content, rfl, hproper, hle⟩ := hxs
      have hlength : e.encode.length ≤ (sequenceValue content).length := by
        rw [encode_eq, length_sequenceValue, length_sequenceValue]
        exact valueLength_mono hle
      exact ⟨by simpa using hproper, by simpa using hlength⟩

theorem reads_readList : Reads (repeated readNext []) fun es bs => Extends [] es bs := by
  refine reads_repeated (R := Extends) (fun before => ⟨[], by simp⟩) ?_ reads_readNext []
  rintro _ _ _ xs ys ⟨es, rfl, hes, hxs⟩ ⟨fs, rfl, hfs, hys⟩
  refine ⟨es ++ fs, List.append_assoc _ _ _, List.forall_mem_append.mpr ⟨hes, hfs⟩, ?_⟩
  rw [List.flatMap_append, List.length_append, List.length_append]
  exact Nat.add_le_add hxs hys

/-- What has been read can be written and read again. -/
theorem fits_of_readList {s t : Input} (h : readList s = .ok (es, t)) :
    (∀ e ∈ es, e.id.IsProper) ∧ Fits es := by
  obtain ⟨content, hbound, fs, rfl, hproper, hle⟩ := of_inSequence reads_readList h
  exact ⟨hproper, Nat.lt_of_le_of_lt hle hbound⟩

/-- A written list of extensions is read as it is if they are all of different kinds, and refused
    as having a duplicate if two of them are of one kind, wherever they stand. Whatever has been read
    is such a list, and is read again when it has been written. -/
theorem readList_exact :
    (∀ es : List Extension, (∀ e ∈ es, e.id.IsProper) → Fits es → ∀ after missing,
      (Distinct es → readList ⟨encodeList es ++ after, missing⟩ = .ok (es, ⟨after, missing⟩)) ∧
      ∀ i j : Fin es.length, i < j → es[i].id = es[j].id →
        readList ⟨encodeList es ++ after, missing⟩ = .error .duplicateExtension) ∧
    ∀ s t es, readList s = .ok (es, t) → Distinct es ∧ ∀ after missing,
      readList ⟨encodeList es ++ after, missing⟩ = .ok (es, ⟨after, missing⟩) := by
  have hread : ∀ es : List Extension, (∀ e ∈ es, e.id.IsProper) → Fits es → Distinct es →
      ∀ after missing, readList ⟨encodeList es ++ after, missing⟩ = .ok (es, ⟨after, missing⟩) := by
    intro es hproper hfits hd after missing
    have hadd : es.foldlM add [] = .ok ([] ++ es) := foldlM_add_of_distinct hd
    rw [readList_encodeList hproper hfits, hadd]
    rfl
  refine ⟨fun es hproper hfits after missing => ⟨fun hd => hread es hproper hfits hd after missing,
    fun i j hij hid => ?_⟩, fun s t es h => ?_⟩
  · have hsame : ¬Distinct es := fun hd =>
      List.pairwise_iff_getElem.mp hd i j i.isLt j.isLt hij hid
    rw [readList_encodeList hproper hfits, foldlM_add_of_not_distinct List.Pairwise.nil hsame]
    rfl
  · have hd : Distinct es := ensures_readList s es t h
    obtain ⟨hproper, hfits⟩ := fits_of_readList h
    exact ⟨hd, hread es hproper hfits hd⟩

/-- Two extensions of different kinds, and a third one of the kind of the first. -/
def sampleList : List Extension := [
  ⟨ObjectId.subjectKeyIdentifier, false, octetStringValue [1]⟩,
  ⟨ObjectId.certificatePolicies, true, []⟩,
  ⟨ObjectId.subjectKeyIdentifier, true, []⟩]

theorem readList_exact_sample :
    (∃ t, readList (.whole (encodeList (sampleList.take 2))) = .ok (sampleList.take 2, t) ∧
      Distinct (sampleList.take 2)) ∧
    readList (.whole (encodeList sampleList)) = .error .duplicateExtension := by
  obtain ⟨hwritten, hread⟩ := readList_exact
  have hdistinct : Distinct (sampleList.take 2) := by
    unfold Distinct
    decide
  have hfits : Fits sampleList := by
    unfold Fits
    decide
  have hfits' : Fits (sampleList.take 2) := by
    unfold Fits
    decide
  have hpair := (hwritten (sampleList.take 2) (by decide) hfits' [] none).1 hdistinct
  have hthree := (hwritten sampleList (by decide) hfits [] none).2 ⟨0, by decide⟩ ⟨2, by decide⟩
    (by decide) rfl
  rw [List.append_nil] at hpair hthree
  exact ⟨⟨_, hpair, (hread _ _ _ hpair).1⟩, hthree⟩

end ResourcePki.Extension

import ResourcePki.Proofs.Der.Whole
import ResourcePki.Proofs.Der.Written
import ResourcePki.Proofs.Resources.As

/-!
AS resources that have been read are written and read again.

An entry is read from one form only, which is the one that it is written in, and the same holds of
the whole part with the numbers. So writing gives this part as it has been, and what has read it
reads it again. Only what stands around it changes: identifiers of routing domains are gone, and the
part is there even if it has been left out.

An entry that inherits has no form, but writing never comes to one. Wherever it stands, it makes all
of the resources inherited, and then no entry is looked at.
-/

namespace ResourcePki

open Der

/-! ### Entries -/

theorem AsNumber.reads_read : Reads read fun n bs => bs = n.encode := by
  have hnumber : Reads unsigned32 fun n bs => bs = unsignedValue n ∧ n < 4294967296 := by
    refine (reads_elementOf (S := fun content n ys => ys = [] ∧ content = unsignedContent n ∧
      n < 4294967296) (by decide) fun e => Reads.lift fun n hn => ?_).weaken ?_
    · obtain ⟨hcontent, hlt⟩ := Element.of_unsigned32 hn
      exact ⟨_, hcontent, rfl, rfl, hlt⟩
    · rintro n bs ⟨content, ys, rfl, rfl, rfl, hlt⟩
      exact ⟨List.append_nil _, hlt⟩
  refine (hnumber.bind (S := fun n a ys => ys = [] ∧ a = ofNat n) fun n =>
    Reads.pure ⟨rfl, rfl⟩).weaken ?_
  rintro a bs ⟨n, xs, ys, rfl, ⟨rfl, hlt⟩, rfl, rfl⟩
  rw [List.append_nil, encode, toNat_ofNat hlt]

theorem AsRange.reads_readEnds : Reads readEnds fun r bs =>
    bs = r.first.encode ++ r.last.encode := by
  refine (AsNumber.reads_read.bind fun a => AsNumber.reads_read.bind
    (S := fun b r ys => ys = [] ∧ make a b = .ok r) fun b => ?_).weaken ?_
  · split
    · rename_i r hr
      exact Reads.pure ⟨rfl, hr⟩
    · exact Reads.throw
  · rintro r bs ⟨a, xs, ys, rfl, rfl, b, ys, zs, rfl, rfl, rfl, hmake⟩
    obtain ⟨rfl, -⟩ := of_make hmake
    rw [List.append_nil]

/-- An entry that is read does not inherit, and there is only one way to spell it. -/
theorem AsEntry.of_ofElement_spelled {e : Element} {entry : AsEntry} (h : ofElement e = .ok entry) :
    entry ≠ .inherit ∧ e.IsThere ∧ ∀ xs, e.IsSpelled xs → xs = entry.encode := by
  unfold ofElement at h
  split at h
  · rename_i htag
    obtain ⟨n, hn, h⟩ := bind_eq_ok.mp h
    obtain ⟨hcontent, hlt⟩ := Element.of_unsigned32 hn
    dsimp only at h
    split at h
    · exact absurd h throw_ne_ok
    · obtain rfl := pure_eq_ok.mp h
      refine ⟨by simp, Element.isThere_of_primitive hcontent, fun xs hxs => ?_⟩
      rw [hxs.eq_value (htag ▸ by decide) hcontent, htag, encode, AsNumber.encode,
        AsNumber.toNat_ofNat hlt]
      rfl
  · split at h
    · rename_i htag
      obtain ⟨r, hr, rfl⟩ := map_eq_ok.mp h
      obtain ⟨hthere, hc, hends⟩ := Element.isThere_of_inside AsRange.reads_readEnds hr
      refine ⟨by simp, hthere, fun xs hxs => ?_⟩
      rw [hxs.eq_constructedValue (htag ▸ by decide) hc, htag, hends]
      rfl
    · simp at h

theorem AsBuilder.of_add {b b' : AsBuilder} {e : AsEntry} (h : b.add e = .ok b') :
    b'.entries.toList = b.entries.toList ++ [e] := by
  unfold add at h
  split at h
  · rename_i c hc
    obtain ⟨-, claimed, -, rfl⟩ := of_push hc
    rw [← Except.ok.inj h]
    exact Array.toList_push
  · simp at h

namespace AsResources

/-! ### The part with the numbers -/

/-- Some octets are those of the entries that have been added, none of which inherits. -/
def Adds (b b' : AsBuilder) (bs : Octets) : Prop :=
  ∃ es : List AsEntry, .inherit ∉ es ∧ b'.entries.toList = b.entries.toList ++ es ∧
    bs = es.flatMap (·.encode)

theorem adds_nil (b : AsBuilder) : Adds b b [] :=
  ⟨[], List.not_mem_nil, (List.append_nil _).symm, rfl⟩

theorem Adds.append {b c d : AsBuilder} {xs ys : Octets} (hx : Adds b c xs) (hy : Adds c d ys) :
    Adds b d (xs ++ ys) := by
  obtain ⟨es, hes, hc, rfl⟩ := hx
  obtain ⟨fs, hfs, hd, rfl⟩ := hy
  refine ⟨es ++ fs, ?_, ?_, List.flatMap_append.symm⟩
  · rw [List.mem_append]
    exact fun h => h.elim hes hfs
  · rw [hd, hc, List.append_assoc]

theorem reads_readEntry (b : AsBuilder) : Reads (readEntry b) fun o bs => Adds b (o.getD b) bs := by
  refine reads_element?_bind (Reads.pure (adds_nil b)) fun e => ?_
  refine Reads.lift_bind fun entry hentry => Reads.lift_bind fun b' hadd => ?_
  obtain ⟨hne, hthere, hspelled⟩ := AsEntry.of_ofElement_spelled hentry
  refine Reads.pure ⟨hthere, fun xs hxs => ⟨[entry], ?_, AsBuilder.of_add hadd, ?_⟩⟩
  · simpa using hne.symm
  · simp [hspelled xs hxs]

theorem reads_entries (b : AsBuilder) : Reads (repeated readEntry b) (Adds b) :=
  reads_repeated adds_nil Adds.append reads_readEntry b

/-- The written form of the part with the numbers. -/
def numbersWritten (r : AsResources) : Octets :=
  if r.isInherited then nullValue else sequenceValue (r.entries.flatMap (·.encode))

theorem encode_eq_written (r : AsResources) :
    r.encode = sequenceValue (constructedValue (Tag.context 0) r.numbersWritten) := rfl

/-- The part with the numbers is only read from the form that it is written in. -/
theorem reads_readNumbers (options : DecodeOptions) :
    Reads (readNumbers options) fun r bs => bs = r.numbersWritten := by
  refine reads_element_bind fun e => Reads.ite (fun htag => ?_) fun _ => Reads.ite (fun htag => ?_)
    fun _ => Reads.throw
  · -- the numbers are inherited
    refine Reads.lift_bind fun _ hnull => Reads.lift_bind fun b hadd => Reads.pure ?_
    obtain ⟨content, hcontent, hempty⟩ := bind_eq_ok.mp hnull
    refine ⟨Element.isThere_of_primitive hcontent, fun xs hxs => ?_⟩
    have hinherited : b.finish.isInherited = true := by
      rw [isInherited_iff]
      show _ ∈ b.entries.toList
      rw [AsBuilder.of_add hadd]
      exact List.mem_append_right _ List.mem_cons_self
    split at hempty
    · rename_i hnil
      rw [List.append_nil, hxs.eq_value (htag ▸ by decide) hcontent, htag, hnil, numbersWritten,
        if_pos hinherited]
      rfl
    · exact absurd hempty throw_ne_ok
  · -- there is a list of entries
    refine Reads.lift_bind fun b hentries => Reads.pure ?_
    obtain ⟨hthere, hc, es, hes, hb, hcontent⟩ :=
      Element.isThere_of_inside (reads_entries (.new options.maxAs)) hentries
    have hfinish : b.finish = ⟨es⟩ := congrArg AsResources.mk hb
    have hinherited : ¬(⟨es⟩ : AsResources).isInherited = true := by
      rw [isInherited_iff]
      exact hes
    refine ⟨hthere, fun xs hxs => ?_⟩
    rw [List.append_nil, hxs.eq_constructedValue (htag ▸ by decide) hc, htag, hcontent, hfinish,
      numbersWritten, if_neg hinherited]
    rfl

/-! ### The round trip -/

/-- What is written of resources is read as them. -/
def IsTaken (options : DecodeOptions) (r : AsResources) : Prop :=
  TakesAll (readNumbers options) r.numbersWritten r

theorem reads_numbers? (options : DecodeOptions) :
    Reads (constructed? (Tag.context 0) (readNumbers options)) fun o bs =>
      o.elim (bs = []) fun r =>
        bs = constructedValue (Tag.context 0) r.numbersWritten ∧ r.IsTaken options := by
  refine reads_elementOf?_bind (Reads.pure rfl) fun e htag => Reads.lift_bind fun r hr => ?_
  obtain ⟨hthere, hc, hcontent⟩ := Element.isThere_of_inside (reads_readNumbers options) hr
  have htaken := Element.takesAll_of_inside (reads_readNumbers options) hr
  rw [hcontent] at htaken
  refine Reads.pure ⟨hthere, fun xs hxs => ⟨?_, htaken⟩⟩
  rw [List.append_nil, hxs.eq_constructedValue (htag ▸ by decide) hc, htag, hcontent]

/-- Reads the parts of resources. -/
def readParts (options : DecodeOptions) : Reader AsResources := do
  let numbers ← constructed? (Tag.context 0) (readNumbers options)
  let _ ← constructed? (Tag.context 1) captureAll
  if (← element?).isSome then throw .asPart
  return numbers.getD .empty

theorem read_eq (options : DecodeOptions) : read options = inSequence (readParts options) := rfl

/-- The written form is not longer than some octets, or than the form of no resources. -/
def FitsInto (r : AsResources) (bs : Octets) : Prop :=
  (constructedValue (Tag.context 0) r.numbersWritten).length ≤ max 4 bs.length

theorem reads_readParts (options : DecodeOptions) :
    Reads (readParts options) fun r bs => r.IsTaken options ∧ r.FitsInto bs := by
  refine ((reads_numbers? options).bind (S := fun o r _ => r = o.getD .empty) fun o => ?_).weaken ?_
  · refine (Reads.bind (S := fun _ r _ => r = o.getD .empty) whole_captureAll.constructed?
      fun _ => ?_).weaken fun r bs ⟨_, _, _, _, _, hr⟩ => hr
    exact reads_element?_bind (Reads.pure rfl) fun e => Reads.throw_bind
  · rintro r bs ⟨_ | r', xs, ys, rfl, hxs, rfl⟩
    · exact ⟨rfl, Nat.le_max_left 4 _⟩
    · obtain ⟨rfl, htaken⟩ := hxs
      refine ⟨htaken, Nat.le_trans ?_ (Nat.le_max_right 4 _)⟩
      rw [List.length_append]
      exact Nat.le_add_right _ _

theorem opens_numbers : Opens (Tag.context 0 ||| 0x20) (Tag.context 0) true :=
  ⟨by decide, rfl, rfl, by decide⟩

/-- The written form is read as the same resources. -/
theorem takes_read {options : DecodeOptions} {r : AsResources} (h : r.IsTaken options)
    (hlen : (constructedValue (Tag.context 0) r.numbersWritten).length < lengthBound) :
    Takes (read options) r.encode r := by
  have hnumbers : r.numbersWritten.length < lengthBound := by
    rw [constructedValue, length_value, valueLength] at hlen
    omega
  have hparts : TakesAll (readParts options) (constructedValue (Tag.context 0) r.numbersWritten) r :=
    (takes_constructed? opens_numbers h hnumbers).all.bind rfl
  rw [read_eq]
  exact takes_inSequence hparts hlen

/-! ### Entries without a form -/

theorem mapM_encode? : ∀ {es : List AsEntry}, .inherit ∉ es →
    es.mapM AsEntry.encode? = some (es.map (·.encode))
  | [], _ => rfl
  | .inherit :: es, h => absurd List.mem_cons_self h
  | .single n :: es, h => by
    rw [List.mapM_cons, mapM_encode? fun hes => h (List.mem_cons_of_mem _ hes)]
    rfl
  | .range r :: es, h => by
    rw [List.mapM_cons, mapM_encode? fun hes => h (List.mem_cons_of_mem _ hes)]
    rfl

/-- Any resources can be written, with entries that inherit at any places. -/
theorem encode?_eq (r : AsResources) : r.encode? = some r.encode := by
  have hnumbers : r.encodeNumbers? = some r.numbersWritten := by
    unfold encodeNumbers? numbersWritten
    split
    · rfl
    · rename_i hinherited
      rw [mapM_encode? fun h => hinherited (isInherited_iff.mpr h), Option.map_some,
        List.flatMap_def]
  rw [encode?, hnumbers]
  rfl

/-- Resources can be written, and what has been written is read as them and nothing else. -/
structure IsRestored (options : DecodeOptions) (r : AsResources) (bs : Octets) : Prop where
  encode : r.encode? = some bs
  decode : Der.decode (read options) bs = .ok r
  whole : read options (.whole bs) = .ok (r, .whole [])

/-- All AS resources can be written, and those that have been read are restored from what is
    written of them. -/
theorem encode?_isRestored : (∀ r : AsResources, ∃ bs, r.encode? = some bs) ∧
    ∀ (options : DecodeOptions) (data : Octets) (r : AsResources),
      Der.decode (read options) data = .ok r → ∃ bs, r.IsRestored options bs := by
  refine ⟨fun r => ⟨_, r.encode?_eq⟩, fun options data r h => ?_⟩
  obtain ⟨t, ht⟩ := of_decode h
  rw [read_eq] at ht
  obtain ⟨content, hcontent, htaken, hfits⟩ := of_inSequence (reads_readParts options) ht
  have hlen := Nat.lt_of_le_of_lt hfits (Nat.max_lt.mpr ⟨by decide, hcontent⟩)
  have htakes := takes_read htaken hlen [] none
  rw [List.append_nil] at htakes
  refine ⟨r.encode, r.encode?_eq, ?_, htakes⟩
  rw [Der.decode, Input.whole, htakes]

/-- A number and a range up to the last number, in front of inherited identifiers of routing
    domains. -/
theorem encode?_isRestored_sample :
    let data : Octets := [0x30, 0x19, 0xa0, 0x13, 0x30, 0x11, 0x02, 0x01, 0x07, 0x30, 0x0c, 0x02,
      0x03, 0x00, 0xfb, 0xf0, 0x02, 0x05, 0x00, 0xff, 0xff, 0xff, 0xff, 0xa1, 0x02, 0x05, 0x00]
    let r : AsResources := ⟨[.single (.ofNat 7), .range ⟨.ofNat 0xfbf0, .ofNat 0xffffffff⟩]⟩
    Der.decode (read {}) data = .ok r ∧ (∃ bs, r.IsRestored {} bs) ∧
      ∃ bs, encode? ⟨[.single (.ofNat 7), .inherit, .inherit]⟩ = some bs := by
  intro data r
  have h : Der.decode (read {}) data = .ok r := by rfl
  exact ⟨h, encode?_isRestored.2 {} data r h, encode?_isRestored.1 _⟩

end AsResources

end ResourcePki

import ResourcePki.Proofs.Record.Transfer.Entry
import ResourcePki.Proofs.Time
import ResourcePki.Record.Transfer

/-!
The parts of a record in the transfer form.

A form has a meaning if it expires at a whole second, its entries pass the checks of reading, and no
text that is there is empty, since an empty one would be taken for one that is absent. Such a form
is read as it has been written, piece by piece, if its counts and lengths fit into the 32 bits that
are there for each of them. Whatever is read, from any octets, expires at a whole second and holds
only entries with a meaning.
-/

namespace ResourcePki.Transfer.Form

/-- The texts of a form in the order in which they are sent. -/
def texts (f : Form) : List (Option Octets) :=
  [f.manifest, f.notification, f.repository, f.crlUri, f.caIssuer, f.authorityKey, f.subjectKey,
    f.routerKey]

/-- The counts and lengths that are sent fit into 32 bits. -/
structure Fits (f : Form) : Prop where
  ipCount : f.ipResources.entries.length < 4294967296
  asCount : f.asResources.entries.length < 4294967296
  lengths : ∀ text ∈ f.texts, (text.getD []).length < 4294967296

instance (f : Form) : Decidable f.Fits :=
  decidable_of_iff (f.ipResources.entries.length < 4294967296 ∧
      f.asResources.entries.length < 4294967296 ∧
      ∀ text ∈ f.texts, (text.getD []).length < 4294967296)
    ⟨fun ⟨hip, has, h⟩ => ⟨hip, has, h⟩, fun h => ⟨h.ipCount, h.asCount, h.lengths⟩⟩

/-- What is sent has a meaning. -/
structure HasMeaning (f : Form) : Prop where
  expires : f.expires.nanos = 0
  ip : ∀ e ∈ f.ipResources.entries, e.HasForm
  as : ∀ e ∈ f.asResources.entries, e.HasForm
  texts : ∀ text ∈ f.texts, ∀ bs ∈ text, bs ≠ []

theorem timeOf_seconds {t : Time} (h : t.nanos = 0) : timeOf t.seconds = .ok t := by
  obtain ⟨s, n, hs⟩ := t
  obtain rfl : n = 0 := h
  rw [timeOf, Time.ofSeconds?, Time.ofSecondsAndNanos?, dif_pos hs]

theorem purposeOf_purposeCode (purpose : Purpose) :
    purposeOf (purposeCode purpose) = .ok purpose := by
  cases purpose with
  | ca => rfl
  | router => rfl

theorem takes_seconds (t : Time) :
    Takes (number 8) (signed t.seconds) (t.seconds % 0x10000000000000000).toNat :=
  takes_number (by omega)

theorem ofSigned_seconds (t : Time) :
    ofSigned (t.seconds % 0x10000000000000000).toNat = t.seconds :=
  ofSigned_signed (by have := t.inRange; omega)

/-- A form with a meaning is read as it has been written. -/
theorem takes_read {f : Form} (hfits : f.Fits) (h : f.HasMeaning) : Takes read f.encode f := by
  intro rest
  have hheader : ¬(f.encode ++ rest).length < headerLength := by
    simp [encode, signed, headerLength]
    omega
  have hpurpose : purposeCode f.purpose < 256 ^ 1 := by cases f.purpose <;> decide
  have hip := takes_entries length_writeIpEntry fun e he => takes_ipEntry (h.ip e he)
  have has := takes_entries length_writeAsEntry fun e he => takes_asEntry (h.as e he)
  have htext : ∀ text ∈ f.texts, Takes readText (writeText text) text := fun text ht =>
    takes_text (h.texts text ht) (hfits.lengths text ht)
  simp only [texts, List.forall_mem_cons, List.not_mem_nil, false_implies, implies_true,
    and_true] at htext
  obtain ⟨hmanifest, hnotification, hrepository, hcrl, hissuer, hauthority, hsubject, hkey⟩ := htext
  rw [read, run_get_bind, if_neg hheader]
  simp only [encode, List.flatMap_cons, List.flatMap_nil, List.append_nil, List.append_assoc]
  -- the header, both lists of entries, and the texts
  rw [(takes_seconds f.expires).run_bind, ofSigned_seconds,
    run_orFault_bind (timeOf_seconds h.expires), (takes_number hpurpose).run_bind,
    run_orFault_bind (purposeOf_purposeCode f.purpose),
    (takes_number (w := 4) f.anchorNumber.toNat_lt).run_bind,
    (takes_number (w := 4) hfits.ipCount).run_bind, (takes_number (w := 4) hfits.asCount).run_bind]
  rw [hip.run_bind, has.run_bind]
  rw [hmanifest.run_bind, hnotification.run_bind, hrepository.run_bind, hcrl.run_bind,
    hissuer.run_bind, hauthority.run_bind, hsubject.run_bind, hkey.run_bind, UInt32.ofNat_toNat]
  rfl

/-! ### What is read -/

theorem nanos_of_timeOf {seconds : Int} {t : Time} (h : timeOf seconds = .ok t) : t.nanos = 0 := by
  unfold timeOf at h
  split at h
  · rename_i t' ht'
    rw [Except.ok.injEq] at h
    exact h ▸ Time.nanos_of_ofSeconds? ht'
  · simp at h

/-- Whatever is read expires at a whole second and holds entries with a meaning. -/
theorem ensures_read : Ensures read fun f => f.expires.nanos = 0 ∧
    (∀ e ∈ f.ipResources.entries, e.HasForm) ∧ ∀ e ∈ f.asResources.entries, e.HasForm := by
  refine Ensures.bind_any fun _ => Ensures.ite (fun _ => Ensures.throw_bind) fun _ => ?_
  refine Ensures.bind_any fun _ => ?_
  refine (ensures_orFault fun t ht => nanos_of_timeOf ht).bind fun t ht => ?_
  -- the purpose, the number of the trust anchor and both counts
  iterate 5 refine Ensures.bind_any fun _ => ?_
  refine (ensures_entries hasForm_of_readIpEntry _ _).bind fun ip hip => ?_
  refine (ensures_entries hasForm_of_readAsEntry _ _).bind fun as has => ?_
  -- the texts
  iterate 8 refine Ensures.bind_any fun _ => ?_
  exact Ensures.pure ⟨ht, hip, has⟩

/-- The number of entries that are read has been sent in four octets. -/
theorem ensures_read_asCount :
    Ensures read fun f => f.asResources.entries.length < 256 ^ 4 := by
  refine Ensures.bind_any fun _ => Ensures.ite (fun _ => Ensures.throw_bind) fun _ => ?_
  -- when the record expires, its purpose, the number of the trust anchor and the other count
  iterate 6 refine Ensures.bind_any fun _ => ?_
  refine (ensures_number 4).bind fun asCount hcount => Ensures.bind_any fun ip => ?_
  refine (ensures_length_entries asEntryLength asCount).bind fun as has => ?_
  -- the texts
  iterate 8 refine Ensures.bind_any fun _ => ?_
  exact Ensures.pure (has ▸ hcount)

end ResourcePki.Transfer.Form

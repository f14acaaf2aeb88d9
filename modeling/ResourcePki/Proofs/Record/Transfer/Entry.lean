import ResourcePki.Proofs.Address.Block
import ResourcePki.Proofs.Record.Transfer.Reader
import ResourcePki.Proofs.Resources.As
import ResourcePki.Proofs.Resources.Ip
import ResourcePki.Record.Transfer.Entry

/-!
Entries of resources in the transfer form.

An entry has a meaning in the transfer form if its parts pass the checks that are made when they are
read. Every such entry is read as it has been written, and only such entries are ever read.
-/

namespace ResourcePki

/-- The entry has a meaning in the transfer form: a prefix is not longer than an address of the
    family and has no bits beyond its length, and the ends of a range are in order. -/
def IpEntry.HasForm : IpEntry → Prop
  | .inherit _ => True
  | .block family (.ofPrefix p) => p.IsProper family
  | .block _ (.ofRange r) => r.first.value ≤ r.last.value

/-- The entry has a meaning in the transfer form: a range has at least two numbers. -/
def AsEntry.HasForm : AsEntry → Prop
  | .inherit => True
  | .single _ => True
  | .range r => r.first.toNat < r.last.toNat

theorem Address.ofOctets_ofNat (a : Address) : ofOctets (Octets.ofNat 16 a.value) = a := by
  have hlt : a.value < 256 ^ 16 := a.isLt
  rw [ofOctets, Octets.toNat_ofNat_of_lt hlt]
  obtain ⟨n, h⟩ := a
  simp only [ofNat, Nat.mod_eq_of_lt h]

theorem AddressRange.make_of_le {first last : Address} (h : first.value ≤ last.value) :
    make first last = .ok ⟨first, last⟩ := by
  rw [make, if_neg (Nat.not_lt.mpr h)]

theorem AsRange.make_of_lt {first last : AsNumber} (h : first.toNat < last.toNat) :
    make first last = .ok ⟨first, last⟩ := by
  rw [make, if_neg (fun heq => Nat.lt_irrefl _ (heq ▸ h)), if_neg (Nat.not_lt.mpr (Nat.le_of_lt h))]

namespace Transfer

theorem familyOf_familyCode (family : Family) : familyOf (familyCode family) = .ok family := by
  cases family with
  | v4 => rfl
  | v6 => rfl

/-! ### IP resources -/

theorem takes_ipParts {family : Family} {kind length : Nat} (first last : Address) {e : IpEntry}
    (hkind : kind < 256) (hlength : length < 256)
    (h : ipEntryOf family kind length first last = .ok e) :
    Takes readIpEntry (ipParts family kind length first.value last.value) e := by
  intro rest
  have hfamily : familyCode family < 256 ^ 1 := by cases family <;> decide
  have htake : ∀ a : Address, Takes (take 16) (Octets.ofNat 16 a.value) (Octets.ofNat 16 a.value) :=
    fun a => by simpa using takes_take (Octets.ofNat 16 a.value)
  simp only [ipParts, List.append_assoc]
  rw [readIpEntry, (takes_number hfamily).run_bind, run_orFault_bind (familyOf_familyCode family),
    (takes_number (w := 1) hkind).run_bind, (takes_number (w := 1) hlength).run_bind,
    (htake first).run_bind, (htake last).run_bind, Address.ofOctets_ofNat, Address.ofOctets_ofNat,
    h]
  rfl

/-- An entry with a meaning is read as it has been written. -/
theorem takes_ipEntry {e : IpEntry} (h : e.HasForm) : Takes readIpEntry (writeIpEntry e) e := by
  cases e with
  | inherit family =>
    exact takes_ipParts ⟨0, by decide⟩ ⟨0, by decide⟩ (by decide) (by decide) rfl
  | block family b =>
    cases b with
    | ofPrefix p =>
      have hlen := h.length_le
      have hbits : family.octets * 8 < 256 := by cases family <;> decide
      refine takes_ipParts _ _ (by decide) (Nat.lt_of_le_of_lt hlen hbits) ?_
      rw [ipEntryOf, if_pos rfl, if_neg (Nat.not_lt.mpr hlen), AddressPrefix.first, h.floor_eq]
    | ofRange r =>
      refine takes_ipParts _ _ (by decide) (by decide) ?_
      rw [ipEntryOf, if_neg (by decide), if_pos rfl, AddressRange.make_of_le h]

theorem length_writeIpEntry (e : IpEntry) : (writeIpEntry e).length = ipEntryLength := by
  cases e with
  | inherit family => simp [writeIpEntry, ipParts, ipEntryLength]
  | block family b => cases b <;> simp [writeIpEntry, ipParts, ipEntryLength]

/-- Entries that are put together have a meaning. -/
theorem hasForm_of_ipEntryOf {family : Family} {kind length : Nat} {first last : Address}
    {e : IpEntry} (h : ipEntryOf family kind length first last = .ok e) : e.HasForm := by
  unfold ipEntryOf at h
  split at h
  · split at h
    · simp at h
    · rename_i hlen
      rw [Except.ok.injEq] at h
      exact h ▸ AddressPrefix.isProper_of_dvd (Nat.not_lt.mp hlen)
        (Address.blockSize_dvd_floor first length)
  split at h
  · split at h
    · rename_i r hr
      obtain ⟨rfl, hle⟩ := AddressRange.of_make hr
      rw [Except.ok.injEq] at h
      exact h ▸ hle
    · simp at h
  split at h
  · rw [Except.ok.injEq] at h
    exact h ▸ trivial
  · simp at h

/-- Only entries with a meaning are read. -/
theorem hasForm_of_readIpEntry : Ensures readIpEntry (·.HasForm) := by
  -- the family, the kind, the length and both ends
  iterate 6 refine Ensures.bind_any fun _ => ?_
  exact ensures_orFault fun _ h => hasForm_of_ipEntryOf h

/-! ### AS resources -/

theorem takes_asParts {kind : Nat} (first last : AsNumber) {e : AsEntry} (hkind : kind < 256)
    (h : asEntryOf kind first last = .ok e) :
    Takes readAsEntry (asParts kind first.toNat last.toNat) e := by
  intro rest
  simp only [asParts, List.append_assoc]
  rw [readAsEntry, (takes_number (w := 1) hkind).run_bind,
    (takes_number (w := 4) first.toNat_lt).run_bind,
    (takes_number (w := 4) last.toNat_lt).run_bind, first.ofNat_toNat, last.ofNat_toNat, h]
  rfl

theorem takes_asEntry {e : AsEntry} (h : e.HasForm) : Takes readAsEntry (writeAsEntry e) e := by
  cases e with
  | inherit => exact takes_asParts ⟨0⟩ ⟨0⟩ (by decide) rfl
  | single n => exact takes_asParts n n (by decide) rfl
  | range r =>
    refine takes_asParts _ _ (by decide) ?_
    rw [asEntryOf, if_neg (by decide), if_pos rfl, AsRange.make_of_lt h]

theorem length_writeAsEntry (e : AsEntry) : (writeAsEntry e).length = asEntryLength := by
  cases e <;> simp [writeAsEntry, asParts, asEntryLength]

theorem hasForm_of_asEntryOf {kind : Nat} {first last : AsNumber} {e : AsEntry}
    (h : asEntryOf kind first last = .ok e) : e.HasForm := by
  unfold asEntryOf at h
  split at h
  · rw [Except.ok.injEq] at h
    exact h ▸ trivial
  split at h
  · split at h
    · rename_i r hr
      obtain ⟨rfl, hlt⟩ := AsRange.of_make hr
      rw [Except.ok.injEq] at h
      exact h ▸ hlt
    · simp at h
  split at h
  · rw [Except.ok.injEq] at h
    exact h ▸ trivial
  · simp at h

theorem hasForm_of_readAsEntry : Ensures readAsEntry (·.HasForm) := by
  iterate 3 refine Ensures.bind_any fun _ => ?_
  exact ensures_orFault fun _ h => hasForm_of_asEntryOf h

end Transfer

/-! ### Entries of certificates -/

/-- What certificates hold has a meaning. -/
theorem IpEntry.IsProper.hasForm {e : IpEntry} (h : e.IsProper) : e.HasForm := by
  cases e with
  | inherit family => trivial
  | block family b =>
    cases b with
    | ofPrefix p => exact AddressBlock.IsProper.shared h p rfl
    | ofRange r => exact AddressBlock.IsProper.first_le_last h

theorem AsEntry.IsProper.hasForm {e : AsEntry} (h : e.IsProper) : e.HasForm := by
  cases e with
  | inherit => trivial
  | single n => trivial
  | range r => exact h

end ResourcePki

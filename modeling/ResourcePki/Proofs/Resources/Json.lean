import ResourcePki.Proofs.JsonValue.Fields
import ResourcePki.Resources.Json

/-!
Resources in JSON are read as they have been written.

Only the length of a prefix has to fit into an octet. Nothing else is asked of blocks and ranges, in
either direction: whatever the bits of a prefix are and however the ends of a range stand, both are
written and read again.
-/

namespace ResourcePki

/-- The entry can be written in JSON: the length of a prefix fits into an octet. -/
def IpEntry.FitsJson : IpEntry → Prop
  | .block _ (.ofPrefix p) => p.length ≤ 255
  | _ => True

/-! ### Written forms -/

theorem Family.ofJson?_toJson (family : Family) : ofJson? family.toJson = some family := by
  cases family with
  | v4 => rfl
  | v6 => rfl

theorem Address.ofJson?_toJson (a : Address) : ofJson? a.toJson = some a := by
  obtain ⟨n, h⟩ := a
  have hle : n ≤ 0xffffffffffffffffffffffffffffffff := Nat.le_of_lt_succ h
  rw [ofJson?, toJson, JsonValue.nat?_ofNat hle, Option.map_some]
  simp only [ofNat, Nat.mod_eq_of_lt h]

theorem AsNumber.ofJson?_toJson (n : AsNumber) : ofJson? n.toJson = some n := by
  have hlt : n.value.toNat < 2 ^ 32 := n.value.toNat_lt
  rw [ofJson?, toJson, toNat, JsonValue.nat?_ofNat (by omega), Option.map_some, ofNat,
    UInt32.ofNat_toNat]

theorem AddressPrefix.ofJson?_toJson {p : AddressPrefix} (h : p.length ≤ 255) :
    ofJson? p.toJson = some p := by
  rw [ofJson?, toJson, JsonValue.fields?_pair (by decide)]
  simp [Address.ofJson?_toJson, JsonValue.nat?_ofNat h]

theorem AddressRange.ofJson?_toJson (r : AddressRange) : ofJson? r.toJson = some r := by
  rw [ofJson?, toJson, JsonValue.fields?_pair (by decide)]
  simp [Address.ofJson?_toJson]

theorem AsRange.ofJson?_toJson (r : AsRange) : ofJson? r.toJson = some r := by
  rw [ofJson?, toJson, JsonValue.fields?_pair (by decide)]
  simp [AsNumber.ofJson?_toJson]

theorem IpEntry.ofJson?_toJson {e : IpEntry} (h : e.FitsJson) : ofJson? e.toJson = some e := by
  cases e with
  | inherit family =>
    show (Family.ofJson? family.toJson).map IpEntry.inherit = _
    rw [Family.ofJson?_toJson]
    rfl
  | block family b =>
    have hblock : AddressBlock.ofJson? b.toJson = some b := by
      cases b with
      | ofPrefix p =>
        show (AddressPrefix.ofJson? p.toJson).map AddressBlock.ofPrefix = _
        rw [AddressPrefix.ofJson?_toJson h]
        rfl
      | ofRange r =>
        show (AddressRange.ofJson? r.toJson).map AddressBlock.ofRange = _
        rw [AddressRange.ofJson?_toJson]
        rfl
    show (do
      return IpEntry.block (← Family.ofJson? family.toJson) (← AddressBlock.ofJson? b.toJson)) = _
    rw [Family.ofJson?_toJson, hblock]
    rfl

theorem AsEntry.ofJson?_toJson (e : AsEntry) : ofJson? e.toJson = some e := by
  cases e with
  | inherit => rfl
  | single n =>
    show (AsNumber.ofJson? n.toJson).map AsEntry.single = _
    rw [AsNumber.ofJson?_toJson]
    rfl
  | range r =>
    show (AsRange.ofJson? r.toJson).map AsEntry.range = _
    rw [AsRange.ofJson?_toJson]
    rfl

theorem IpResources.ofJson?_toJson {r : IpResources} (h : ∀ e ∈ r.entries, e.FitsJson) :
    ofJson? r.toJson = some r := by
  rw [ofJson?, toJson, JsonValue.list?_array fun e he => IpEntry.ofJson?_toJson (h e he)]
  rfl

theorem AsResources.ofJson?_toJson (r : AsResources) : ofJson? r.toJson = some r := by
  rw [ofJson?, toJson, JsonValue.list?_array fun e _ => e.ofJson?_toJson]
  rfl

/-! ### What is read -/

theorem AddressPrefix.length_le_of_ofJson? {v : JsonValue} {p : AddressPrefix}
    (h : ofJson? v = some p) : p.length ≤ 255 := by
  obtain ⟨fields, -, h⟩ := Option.bind_eq_some_iff.mp h
  split at h
  · obtain ⟨address, -, h⟩ := Option.bind_eq_some_iff.mp h
    obtain ⟨length, hlength, h⟩ := Option.bind_eq_some_iff.mp h
    exact Option.some.inj h ▸ JsonValue.le_of_nat? hlength
  · simp at h

theorem AddressBlock.length_le_of_ofJson? {v : JsonValue} {p : AddressPrefix}
    (h : ofJson? v = some (.ofPrefix p)) : p.length ≤ 255 := by
  unfold ofJson? at h
  split at h
  · obtain ⟨q, hq, h⟩ := Option.map_eq_some_iff.mp h
    rw [AddressBlock.ofPrefix.injEq] at h
    exact h ▸ AddressPrefix.length_le_of_ofJson? hq
  · obtain ⟨r, -, h⟩ := Option.map_eq_some_iff.mp h
    simp at h
  · simp at h

theorem IpEntry.fitsJson_of_ofJson? {v : JsonValue} {e : IpEntry} (h : ofJson? v = some e) :
    e.FitsJson := by
  unfold ofJson? at h
  split at h
  · obtain ⟨family, -, rfl⟩ := Option.map_eq_some_iff.mp h
    trivial
  · obtain ⟨family, -, h⟩ := Option.bind_eq_some_iff.mp h
    obtain ⟨b, hb, h⟩ := Option.bind_eq_some_iff.mp h
    obtain rfl := Option.some.inj h
    cases b with
    | ofPrefix p => exact AddressBlock.length_le_of_ofJson? hb
    | ofRange r => trivial
  · simp at h

theorem IpResources.fitsJson_of_ofJson? {v : JsonValue} {r : IpResources}
    (h : ofJson? v = some r) : ∀ e ∈ r.entries, e.FitsJson := by
  obtain ⟨entries, hentries, rfl⟩ := Option.map_eq_some_iff.mp h
  intro e he
  obtain ⟨w, hw⟩ := JsonValue.exists_of_list? hentries e he
  exact IpEntry.fitsJson_of_ofJson? hw

/-! ### Values that can be written -/

open JsonValue (IsWritten)

theorem Family.isWritten_toJson (family : Family) : IsWritten family.toJson := by
  cases family with
  | v4 => exact .string _
  | v6 => exact .string _

theorem AddressBlock.isWritten_toJson (b : AddressBlock) : IsWritten b.toJson := by
  cases b with
  | ofPrefix p => exact .case (.pair (.number _) (.number _))
  | ofRange r => exact .case (.pair (.number _) (.number _))

theorem IpEntry.isWritten_toJson (e : IpEntry) : IsWritten e.toJson := by
  cases e with
  | inherit family => exact .case family.isWritten_toJson
  | block family b =>
    refine .case (.array (List.forall_mem_cons.mpr ⟨family.isWritten_toJson, ?_⟩))
    exact List.forall_mem_singleton.mpr b.isWritten_toJson

theorem AsEntry.isWritten_toJson (e : AsEntry) : IsWritten e.toJson := by
  cases e with
  | inherit => exact .string _
  | single n => exact .case (.number _)
  | range r => exact .case (.pair (.number _) (.number _))

theorem IpResources.isWritten_toJson (r : IpResources) : IsWritten r.toJson :=
  .array_map IpEntry.isWritten_toJson r.entries

theorem AsResources.isWritten_toJson (r : AsResources) : IsWritten r.toJson :=
  .array_map AsEntry.isWritten_toJson r.entries

end ResourcePki

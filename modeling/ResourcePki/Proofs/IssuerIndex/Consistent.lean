import ResourcePki.IssuerIndex
import ResourcePki.Proofs.KeyIdentifier

/-!
The entries of an index, the map to them, and the chains through them.

An index is consistent if its map leads from a key to the entry with that key and nowhere else.
Adding an entry with a key that is not in the map keeps this. In a consistent index the order of the
map is an order of the entries, and no key stands twice in it. Links always point to earlier
entries, so a chain of links goes through entries at ever smaller positions: it comes to an end, has
no more entries than positions, and does not meet a key again.
-/

namespace ResourcePki.IssuerIndex

variable {t : IssuerIndex} {id : EntryId} {e : IssuerEntry}

/-! ### The entries and the map -/

/-- The map leads from a key to the entry that has it, and nowhere else. -/
def IsConsistent (t : IssuerIndex) : Prop :=
  ∀ k id, t.find? k = some id ↔ ∃ e, t.get? id = some e ∧ e.key = k

theorem isConsistent_empty : empty.IsConsistent := by
  intro k id
  simp [find?, get?, empty]

theorem position_lt_of_get? (h : t.get? id = some e) : id.position < t.size :=
  (Array.getElem?_eq_some_iff.mp h).1

/-- A link of an entry leads to an entry at an earlier position. -/
theorem exists_parent (h : t.get? id = some e) {p : EntryId} (hp : e.parent = some p) :
    p.position < id.position ∧ ∃ f, t.get? p = some f := by
  have hlt := t.parent_lt id.position e h p hp
  have hsize := position_lt_of_get? h
  exact ⟨hlt, _, Array.getElem?_eq_getElem (Nat.lt_trans hlt hsize)⟩

section

variable (h : t.isValidParent e.parent)

include h

theorem get?_push (id : EntryId) :
    (t.push e h).get? id = if id.position = t.size then some e else t.get? id :=
  Array.getElem?_push

theorem find?_push (k : KeyIdentifier) :
    (t.push e h).find? k = if e.key = k then some ⟨t.size⟩ else t.find? k := by
  simp only [find?, push, Std.TreeMap.getElem?_insert, Std.LawfulEqOrd.compare_eq_iff_eq]

theorem size_push : (t.push e h).size = t.size + 1 :=
  Array.size_push _

/-- An entry stays where it is when another one is added. -/
theorem get?_push_of_get? {f : IssuerEntry} (hf : t.get? id = some f) :
    (t.push e h).get? id = some f := by
  have hlt := position_lt_of_get? hf
  rw [get?_push, if_neg (by omega), hf]

/-- An entry with a new key finds its place in the map. -/
theorem IsConsistent.push (ht : t.IsConsistent) (hnew : t.find? e.key = none) :
    (t.push e h).IsConsistent := by
  intro k id
  rw [find?_push, get?_push]
  by_cases hk : e.key = k
  · subst hk
    rw [if_pos rfl, Option.some.injEq]
    constructor
    · rintro rfl
      exact ⟨e, if_pos rfl, rfl⟩
    · rintro ⟨f, hf, hkey⟩
      split at hf
      · rename_i hlast
        exact congrArg EntryId.mk hlast.symm
      · -- another entry with the key would have been found
        have hold := (ht e.key id).mpr ⟨f, hf, hkey⟩
        rw [hnew] at hold
        simp at hold
  · rw [if_neg hk, ht k id]
    constructor
    · rintro ⟨f, hf, hkey⟩
      have hlt := position_lt_of_get? hf
      exact ⟨f, by rw [if_neg (by omega), hf], hkey⟩
    · rintro ⟨f, hf, hkey⟩
      split at hf
      · exact absurd (Option.some.inj hf ▸ hkey) hk
      · exact ⟨f, hf, hkey⟩

end

/-- Entries with one key are one entry. -/
theorem IsConsistent.id_eq (ht : t.IsConsistent) {id' : EntryId} {f : IssuerEntry}
    (he : t.get? id = some e) (hf : t.get? id' = some f) (hkey : e.key = f.key) : id = id' := by
  have hid := (ht e.key id).mpr ⟨e, he, rfl⟩
  have hid' := (ht e.key id').mpr ⟨f, hf, hkey.symm⟩
  rw [hid] at hid'
  exact Option.some.inj hid'

theorem mem_entries_iff : e ∈ t.entries.toList ↔ ∃ id, t.get? id = some e := by
  rw [Array.mem_toList_iff, Array.mem_iff_getElem?]
  exact ⟨fun ⟨i, hi⟩ => ⟨⟨i⟩, hi⟩, fun ⟨id, hid⟩ => ⟨id.position, hid⟩⟩

theorem IsConsistent.nodup_keys (ht : t.IsConsistent) :
    (t.entries.toList.map (·.key)).Nodup := by
  refine List.pairwise_iff_getElem.mpr fun i j hi hj hij hkey => ?_
  simp only [List.length_map] at hi hj
  simp only [List.getElem_map] at hkey
  have hget : ∀ (n : Nat) (hn : n < t.entries.toList.length),
      t.get? ⟨n⟩ = some t.entries.toList[n] := fun n hn => by
    rw [get?, Array.getElem?_eq_getElem hn, Array.getElem_toList]
  have heq := ht.id_eq (hget i hi) (hget j hj) hkey
  exact Nat.ne_of_lt hij (congrArg EntryId.position heq)

/-! ### The order of the entries -/

/-- The order of the keys is that of the entries. -/
theorem IsConsistent.ascending (ht : t.IsConsistent) :
    t.toSortedList.Pairwise fun e f => e.key.octets < f.key.octets := by
  have hmap : t.byKey.toList.Pairwise fun p q => compare p.1 q.1 = .lt :=
    Std.TreeMap.ordered_keys_toList
  have hkey : ∀ p ∈ t.byKey.toList, ∀ e, t.get? p.2 = some e → e.key = p.1 := by
    intro p hp e he
    obtain ⟨f, hf, hfkey⟩ := (ht p.1 p.2).mp (Std.TreeMap.mem_toList_iff_getElem?_eq_some.mp hp)
    rw [he] at hf
    exact Option.some.inj hf ▸ hfkey
  rw [toSortedList, List.pairwise_filterMap]
  refine hmap.imp_of_mem fun {p q} hp hq hpq e he f hf => ?_
  rw [hkey p hp e he, hkey q hq f hf]
  exact KeyIdentifier.compare_eq_lt.mp hpq

theorem IsConsistent.mem_toSortedList (ht : t.IsConsistent) :
    e ∈ t.toSortedList ↔ e ∈ t.entries.toList := by
  rw [toSortedList, List.mem_filterMap, mem_entries_iff]
  constructor
  · rintro ⟨p, -, hp⟩
    exact ⟨p.2, hp⟩
  · rintro ⟨id, hid⟩
    have hfind := (ht e.key id).mpr ⟨e, hid, rfl⟩
    exact ⟨(e.key, id), Std.TreeMap.mem_toList_iff_getElem?_eq_some.mpr hfind, hid⟩

/-- All entries are listed, each of them once. -/
theorem IsConsistent.perm_toSortedList (ht : t.IsConsistent) :
    t.toSortedList.Perm t.entries.toList := by
  have hsorted : t.toSortedList.Nodup := by
    refine ht.ascending.imp ?_
    rintro e _ hlt rfl
    exact List.lt_irrefl _ hlt
  have hentries : t.entries.toList.Nodup :=
    List.Pairwise.of_map _ (fun _ _ hne heq => hne (congrArg _ heq)) ht.nodup_keys
  exact (List.perm_ext_iff_of_nodup hsorted hentries).mpr fun e => ht.mem_toSortedList

/-! ### Chains -/

/-- Entries from the given one upwards, each with a link to the next one, up to one without. -/
inductive Ascends (t : IssuerIndex) : EntryId → List IssuerEntry → Prop where
  | anchor {id : EntryId} {e : IssuerEntry} (he : t.get? id = some e) (hp : e.parent = none) :
    Ascends t id [e]
  | issued {id p : EntryId} {e : IssuerEntry} {c : List IssuerEntry} (he : t.get? id = some e)
    (hp : e.parent = some p) (hc : Ascends t p c) : Ascends t id (e :: c)

/-- As many entries as there are positions up to the given one are enough. -/
theorem ascends_chainUpTo {n : Nat} (hn : id.position < n) (he : t.get? id = some e) :
    t.Ascends id (t.chainUpTo n id) := by
  induction n generalizing id e with
  | zero => omega
  | succ n ih =>
    simp only [chainUpTo, he]
    split
    · rename_i hp
      exact .anchor he hp
    · rename_i p hp
      obtain ⟨hlt, f, hf⟩ := exists_parent he hp
      exact .issued he hp (ih (by omega) hf)

/-- From every entry a chain leads upwards. -/
theorem exists_chain (he : t.get? id = some e) : ∃ c, t.chain? id = some c ∧ t.Ascends id c :=
  ⟨_, if_pos (position_lt_of_get? he), ascends_chainUpTo (Nat.lt_succ_self _) he⟩

namespace Ascends

variable {c : List IssuerEntry}

/-- A chain does not go past the entry from which it starts. -/
theorem exists_get? (h : t.Ascends id c) :
    ∀ f ∈ c, ∃ i, t.get? i = some f ∧ i.position ≤ id.position := by
  induction h with
  | @anchor id e he hp =>
    intro f hf
    rw [List.mem_singleton] at hf
    exact ⟨id, hf ▸ he, Nat.le_refl _⟩
  | @issued id p e c he hp hc ih =>
    intro f hf
    have hlt := (exists_parent he hp).1
    rcases List.mem_cons.mp hf with rfl | hf
    · exact ⟨id, he, Nat.le_refl _⟩
    · obtain ⟨i, hi, hle⟩ := ih f hf
      exact ⟨i, hi, by omega⟩

theorem length_le (h : t.Ascends id c) : c.length ≤ id.position + 1 := by
  induction h with
  | anchor he hp => simp
  | issued he hp hc ih =>
    have hlt := (exists_parent he hp).1
    rw [List.length_cons]
    omega

/-- A chain never comes back to a key, since what is further up stands earlier. -/
theorem nodup_keys (ht : t.IsConsistent) (h : t.Ascends id c) : (c.map (·.key)).Nodup := by
  induction h with
  | anchor he hp => simp
  | @issued id p e c he hp hc ih =>
    rw [List.map_cons, List.nodup_cons]
    refine ⟨fun hmem => ?_, ih⟩
    obtain ⟨f, hf, hkey⟩ := List.mem_map.mp hmem
    obtain ⟨i, hi, hle⟩ := hc.exists_get? f hf
    have hlt := (exists_parent he hp).1
    have heq := ht.id_eq he hi hkey.symm
    rw [heq] at hlt
    omega

end Ascends

end ResourcePki.IssuerIndex

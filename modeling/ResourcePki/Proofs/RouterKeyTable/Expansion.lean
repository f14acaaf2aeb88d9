import ResourcePki.Proofs.Record.RoleCheck
import ResourcePki.Proofs.RouterKeyTable.Runs
import ResourcePki.Proofs.RouterKeyTable.Words

/-!
Which keys the record of a router adds to a table.

The numbers of a record are counted before they are gone through. No count of a record that has been
accepted or restored leaves the words of 64 bits: the entries of an accepted certificate have no
number in common, so they hold at most as many as there are, and a record that has been restored has
less than 2 ^ 32 entries with at most 2 ^ 32 numbers each. A record whose count is within the limit
of a table adds its key for every number that one of its entries holds, and leaves every other key
alone. For an accepted certificate these keys are all different, so a table without keys has as many
of them as have been counted.
-/

namespace ResourcePki

/-! ### The numbers of an entry -/

namespace AsNumber

theorem length_all : all.length = 4294967296 := by
  rw [all, List.length_map, List.length_range]

theorem nodup_all : all.Nodup := by
  refine List.Nodup.map_on (fun m hm n hn h => ?_) List.nodup_range
  rw [← toNat_ofNat (List.mem_range.mp hm), ← toNat_ofNat (List.mem_range.mp hn), h]

end AsNumber

namespace AsEntry

theorem nodup_covered (e : AsEntry) : e.covered.Nodup :=
  AsNumber.nodup_all.filter _

theorem length_covered_le (e : AsEntry) : e.covered.length ≤ 4294967296 :=
  AsNumber.length_all ▸ List.length_filter_le _ _

end AsEntry

/-- No number is in two entries of an accepted certificate. -/
theorem AsResources.IsProper.nodup_covered {limit : Nat} {r : AsResources} (h : r.IsProper limit) :
    (r.entries.flatMap (·.covered)).Nodup := by
  refine List.nodup_flatMap.mpr ⟨fun e _ => e.nodup_covered, ?_⟩
  rcases h.exclusive with hinherit | ⟨-, hapart⟩
  · rw [hinherit]
    exact List.pairwise_singleton _ _
  · refine hapart.imp fun {e f} hef n he hf => hef n ?_
    exact ⟨AsEntry.mem_covered.mp he, AsEntry.mem_covered.mp hf⟩

/-- The entries of an accepted certificate hold at most all numbers there are. -/
theorem AsResources.IsProper.sum_covered_le {limit : Nat} {r : AsResources} (h : r.IsProper limit) :
    (r.entries.map (·.covered.length)).sum ≤ 4294967296 := by
  rw [← List.length_flatMap, ← AsNumber.length_all]
  refine (List.subperm_of_subset h.nodup_covered fun n hn => ?_).length_le
  obtain ⟨e, -, hmem⟩ := List.mem_flatMap.mp hn
  exact (List.mem_filter.mp hmem).1

/-- So many entries hold at most so many times all numbers there are. -/
theorem sum_covered_le : ∀ es : List AsEntry,
    (es.map (·.covered.length)).sum ≤ es.length * 4294967296
  | [] => Nat.zero_le _
  | e :: es => by
    have hhead := e.length_covered_le
    have htail := sum_covered_le es
    rw [List.map_cons, List.sum_cons, List.length_cons]
    omega

/-! ### Records that can be counted -/

namespace Record

/-- The AS numbers of a record can be counted in words. -/
structure HasCount (r : Record) : Prop where
  ordered : ∀ e ∈ r.asResources.entries, RouterKeyTable.Words.IsOrdered e
  fits : (r.asResources.entries.map (·.covered.length)).sum < 2 ^ 64

theorem HasMeaning.ordered {r : Record} (h : r.HasMeaning) :
    ∀ e ∈ r.asResources.entries, RouterKeyTable.Words.IsOrdered e := by
  rintro e he q rfl
  exact Nat.le_of_lt (h.as _ he)

theorem length_of_ofTransfer {bs rest : Octets} {r : Record}
    (h : ofTransfer bs = .ok (r, rest)) : r.asResources.entries.length < 256 ^ 4 := by
  have hr : Ensures readTransfer fun r => r.asResources.entries.length < 256 ^ 4 := by
    refine Transfer.Form.ensures_read_asCount.bind fun f hf =>
      Transfer.ensures_orFault fun r hr => ?_
    obtain ⟨-, -, has, -⟩ := Transfer.Form.of_record hr
    exact has ▸ hf
  exact hr _ _ _ h

/-- Every record there is can be counted. -/
theorem IsObtained.hasCount {r : Record} (h : r.IsObtained) : r.HasCount := by
  induction h with
  | @decoded options bs r h =>
    have hsum := (resources_proper_of_ofDer h).2.sum_covered_le
    exact ⟨(hasMeaning_of_ofDer h).ordered, by omega⟩
  | @restored bs rest r h =>
    have hsum := sum_covered_le r.asResources.entries
    have hlength := length_of_ofTransfer h
    exact ⟨(hasMeaning_of_ofTransfer h).ordered, by omega⟩
  | underAnchor _ number ih => exact ⟨ih.ordered, ih.fits⟩

/-- The record is that of a router with the key, and one of its entries holds the number that the
    key is for. -/
def Authorises (r : Record) (k : RouterKey) : Prop :=
  r.role = .router k.key ∧ k.identifier = r.subjectKey ∧
    ∃ e ∈ r.asResources.entries, e.Holds k.asNumber

end Record

/-! ### What is added -/

namespace RouterKeyTable

theorem mem_contributions {limit : Nat} {r : Record} {key : PublicKey} {k : RouterKey}
    (hrole : r.role = .router key)
    (hlimit : (r.asResources.entries.flatMap (·.covered)).length ≤ limit) :
    k ∈ ((Operation.insertRecord r).contributions limit).map Prod.fst ↔ r.Authorises k := by
  simp only [Operation.contributions, hrole, if_pos hlimit, List.map_map, List.mem_map,
    Function.comp_apply, List.mem_flatMap, AsEntry.mem_covered, Record.Authorises, Role.router.injEq]
  constructor
  · rintro ⟨n, hn, rfl⟩
    exact ⟨rfl, rfl, hn⟩
  · rintro ⟨rfl, hidentifier, hn⟩
    exact ⟨k.asNumber, hn, by rw [← hidentifier]⟩

/-- Adding a key leaves it in the table and every other key as it is. -/
theorem isSome_get?_insert (t : RouterKeyTable) (k k' : RouterKey) (info : RouterKeyStatus) :
    ((t.insert k info).get? k').isSome ↔ (t.get? k').isSome ∨ k' = k := by
  rw [get?_insert]
  by_cases hk : k = k'
  · subst hk
    cases hold : t.get? k with
    | none => simp
    | some old => by_cases hlater : old.expires.before info.expires = true <;> simp [hlater]
  · simp [hk, Ne.symm hk]

theorem isSome_get?_addAll (k : RouterKey) : ∀ (cs : List Contribution) (t : RouterKeyTable),
    ((t.addAll cs).get? k).isSome ↔ (t.get? k).isSome ∨ k ∈ cs.map Prod.fst
  | [], t => by simp [addAll]
  | c :: cs, t => by
    have hrest := isSome_get?_addAll k cs (t.insert c.1 c.2)
    rw [isSome_get?_insert] at hrest
    rw [List.map_cons, List.mem_cons, ← or_assoc]
    exact hrest

/-- What is known of a key changes only if something is contributed to it. -/
theorem get?_addAll_of_not_mem {k : RouterKey} : ∀ {cs : List Contribution} {t : RouterKeyTable},
    k ∉ cs.map Prod.fst → (t.addAll cs).get? k = t.get? k
  | [], _, _ => rfl
  | c :: cs, t, h => by
    rw [List.map_cons, List.mem_cons, not_or] at h
    have hrest := get?_addAll_of_not_mem (t := t.insert c.1 c.2) h.2
    rw [get?_insert, if_neg fun hc => h.1 hc.1.symm] at hrest
    exact hrest

/-- A table without keys knows of none. -/
theorem reflects_of_size_eq_zero {t : RouterKeyTable} (h : t.size = 0) : t.Reflects [] where
  absent _ _ _ := List.not_mem_nil
  latest k info hk := by
    have hempty : t.toList = [] := by
      rw [← List.length_eq_zero_iff, ← h]
      exact Std.TreeMap.length_toList
    have hmem := (t.mem_toList_iff k info).mpr hk
    rw [hempty] at hmem
    exact absurd hmem List.not_mem_nil

/-- A table without keys gets one for each number of an accepted certificate. -/
theorem size_insertRecord {t : RouterKeyTable} {r : Record} {key : PublicKey} {limit : Nat}
    (hempty : t.size = 0) (hrole : r.role = .router key) (hproper : r.asResources.IsProper limit)
    (hlimit : (r.asResources.entries.flatMap (·.covered)).length ≤ t.limit) :
    (t.insertRecord r).size = (r.asResources.entries.flatMap (·.covered)).length := by
  have hkeys : (((Operation.insertRecord r).contributions t.limit).map Prod.fst).Nodup := by
    simp only [Operation.contributions, hrole, if_pos hlimit, List.map_map]
    refine hproper.nodup_covered.map fun m n h => ?_
    exact congrArg RouterKey.asNumber h
  have hreflects := (reflects_of_size_eq_zero hempty).addAll
    ((Operation.insertRecord r).contributions t.limit)
  rw [insertRecord_eq, hreflects.size_eq, List.nil_append, hkeys.dedup]
  simp only [Operation.contributions, hrole, if_pos hlimit, List.length_map]

/-- The record of a router adds its key for the numbers of its entries, all of them or none, and
    nothing else. The count that decides about it is exact, and no word is left on the way. -/
theorem insertRecord_exact {r : Record} (h : r.IsObtained) (t : RouterKeyTable) :
    Words.insertRecord? t r = some (t.insertRecord r) ∧
    ∃ count, Words.countFrom? 0 r.asResources.entries = some count ∧
      count.toNat = (r.asResources.entries.map (·.covered.length)).sum ∧
      ((∀ key, r.role ≠ .router key) ∨ t.limit < count.toNat → t.insertRecord r = t) ∧
      ((∃ key, r.role = .router key) → count.toNat ≤ t.limit →
        (∀ k, ((t.insertRecord r).get? k).isSome ↔ (t.get? k).isSome ∨ r.Authorises k) ∧
        (∀ k, ¬r.Authorises k → (t.insertRecord r).get? k = t.get? k) ∧
        ∀ options bs c number, Record.ofDer options bs = .ok c → r = c.underAnchor number →
          t.size = 0 → (t.insertRecord r).size = count.toNat ∧ (t.insertRecord r).size ≤ t.limit) := by
  obtain ⟨hordered, hfits⟩ := h.hasCount
  obtain ⟨count, hcount, hsum⟩ := Words.exists_countFrom? (n := 0) hordered
    (by rwa [UInt64.toNat_zero, Nat.zero_add])
  rw [UInt64.toNat_zero, Nat.zero_add] at hsum
  have hlength : count.toNat = (r.asResources.entries.flatMap (·.covered)).length := by
    rw [hsum, List.length_flatMap]
  refine ⟨Words.insertRecord?_eq hcount hsum, count, hcount, hsum, ?_, ?_⟩
  · rintro (hrole | hlimit)
    · cases hca : r.role with
      | ca p => rw [insertRecord, hca]; rfl
      | router key => exact absurd hca (hrole key)
    · rw [insertRecord_eq, Operation.contributions]
      cases r.role with
      | ca p => rfl
      | router key =>
        dsimp only
        rw [if_neg (by omega)]
        rfl
  · rintro ⟨key, hrole⟩ hlimit
    rw [hlength] at hlimit
    refine ⟨fun k => ?_, fun k hk => ?_, ?_⟩
    · rw [insertRecord_eq, isSome_get?_addAll, mem_contributions hrole hlimit]
    · rw [← mem_contributions hrole hlimit] at hk
      rw [insertRecord_eq, get?_addAll_of_not_mem hk]
    · rintro options bs c number hdecoded rfl hempty
      have hproper := (Record.resources_proper_of_ofDer hdecoded).2
      have hsize := size_insertRecord hempty hrole hproper hlimit
      exact ⟨hsize.trans hlength.symm, hsize ▸ hlimit⟩

/-- A table with room for three keys gets all of them, one with less room none. -/
theorem insertRecord_exact_sample : ∃ r key, Record.ofDer {} Record.sampleRouter = .ok r ∧
    Words.countFrom? 0 r.asResources.entries = some 3 ∧
    ((withLimit 3).insertRecord r).size = 3 ∧
    (((withLimit 3).insertRecord r).get? ⟨⟨4294967295⟩, r.subjectKey, key⟩).isSome ∧
    (withLimit 2).insertRecord r = withLimit 2 := by
  obtain ⟨r, key, hr, -, hrole, hentries⟩ := Record.exists_ofDer_sampleRouter
  have hcount : Words.countFrom? 0 r.asResources.entries = some 3 := by
    rw [hentries]
    decide +kernel
  obtain ⟨-, n, hn, -, -, hadded⟩ := insertRecord_exact (.decoded hr) (withLimit 3)
  obtain ⟨-, m, hm, -, hrefused, -⟩ := insertRecord_exact (.decoded hr) (withLimit 2)
  obtain rfl := Option.some.inj (hcount.symm.trans hn)
  obtain rfl := Option.some.inj (hcount.symm.trans hm)
  obtain ⟨hkeys, -, hsize⟩ := hadded ⟨key, hrole⟩ (Nat.le_refl 3)
  have hlast : r.Authorises ⟨⟨4294967295⟩, r.subjectKey, key⟩ := by
    refine ⟨hrole, rfl, .range ⟨⟨4294967294⟩, ⟨4294967295⟩⟩, ?_, ?_⟩
    · rw [hentries]
      exact List.mem_cons_of_mem _ List.mem_cons_self
    · show 4294967294 ≤ 4294967295 ∧ 4294967295 ≤ 4294967295
      decide
  exact ⟨r, key, hr, hcount, (hsize {} Record.sampleRouter r r.anchorNumber hr rfl rfl).1,
    (hkeys _).mpr (.inr hlast), hrefused (.inr (Nat.lt_succ_self 2))⟩

end RouterKeyTable

end ResourcePki

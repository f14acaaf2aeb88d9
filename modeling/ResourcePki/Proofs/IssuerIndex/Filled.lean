import Mathlib.Data.List.Chain
import Mathlib.Data.List.Induction
import Mathlib.Data.List.Nodup
import ResourcePki.Proofs.IssuerIndex.Runs

/-!
Filling an index with records, each below the entry that is found for its issuer.

The identifiers that the entries get depend on the order in which the records come, but the graph of
issuers does not, as long as no record comes before that of its issuer. An index that has been
filled is an image of the graph: an entry links to exactly the entry of its issuer among the
records. So a chain through the entries is a chain of issuers, of which the records allow only one
from each record upwards, and the records by their key identifiers can be listed in only one way.

A record whose authority key is its own subject key has no issuer but itself. It is not found when
it is added, since its key is not taken yet, and that is what ends a chain.
-/

namespace ResourcePki

/-- A record is that of the issuer of another one. -/
def Record.IsIssuerOf (s r : Record) : Prop :=
  s ≠ r ∧ r.authorityKey = some s.subjectKey

instance (s r : Record) : Decidable (s.IsIssuerOf r) :=
  inferInstanceAs (Decidable (s ≠ r ∧ r.authorityKey = some s.subjectKey))

namespace IssuerIndex

/-- No record comes before that of its issuer. -/
def IssuersFirst (rs : List Record) : Prop :=
  rs.Pairwise fun before after => ¬after.IsIssuerOf before

instance (rs : List Record) : Decidable (IssuersFirst rs) :=
  inferInstanceAs (Decidable (rs.Pairwise fun before after => ¬after.IsIssuerOf before))

/-- Adds a record below the entry that is found for its authority key. -/
def insertFound (t : IssuerIndex) (r : Record) : Except IssuerIndexError IssuerIndex :=
  match t.insert r (r.authorityKey.bind t.find?) with
  | (t, .ok _) => .ok t
  | (_, .error e) => .error e

/-- The index after some records have been added to one without entries. -/
def fill (rs : List Record) : Except IssuerIndexError IssuerIndex :=
  rs.foldlM insertFound empty

/-- All records by their subject key identifiers in ascending order. -/
def records (t : IssuerIndex) : List Record :=
  t.toSortedList.map (·.record)

/-- The records from that with a subject key identifier up to its trust anchor. -/
def chainOf? (t : IssuerIndex) (k : KeyIdentifier) : Option (List Record) :=
  (t.find? k).bind fun id => (t.chain? id).map fun c => c.map (·.record)

/-! ### Chains of issuers -/

/-- A record among others, its issuer, and so on up to one whose issuer is not among them. -/
inductive IsIssuerChain (rs : List Record) : Record → List Record → Prop where
  | anchor {r : Record} (hr : r ∈ rs) (h : ∀ s ∈ rs, ¬s.IsIssuerOf r) : IsIssuerChain rs r [r]
  | issued {r s : Record} {c : List Record} (hr : r ∈ rs) (h : s.IsIssuerOf r)
    (hc : IsIssuerChain rs s c) : IsIssuerChain rs r (r :: c)

namespace IsIssuerChain

variable {rs rs' : List Record} {r : Record} {c c' : List Record}

theorem mem (h : IsIssuerChain rs r c) : r ∈ rs := by
  cases h <;> assumption

/-- The order of the records is of no account. -/
theorem of_perm (hperm : rs.Perm rs') (h : IsIssuerChain rs r c) : IsIssuerChain rs' r c := by
  induction h with
  | anchor hr h => exact .anchor (hperm.mem_iff.mp hr) fun s hs => h s (hperm.mem_iff.mpr hs)
  | issued hr h hc ih => exact .issued (hperm.mem_iff.mp hr) h ih

/-- Where no key occurs twice, a record has one issuer at most, so there is one way upwards. -/
theorem unique (hkeys : (rs.map (·.subjectKey)).Nodup) (h : IsIssuerChain rs r c)
    (h' : IsIssuerChain rs r c') : c = c' := by
  induction h generalizing c' with
  | anchor hr h =>
    cases h' with
    | anchor => rfl
    | issued _ hs hc => exact absurd hs (h _ hc.mem)
  | issued hr h hc ih =>
    cases h' with
    | anchor _ hnone => exact absurd h (hnone _ hc.mem)
    | issued _ h' hc' =>
      have hkey := Option.some.inj (h.2.symm.trans h'.2)
      obtain rfl := List.inj_on_of_nodup_map hkeys hc.mem hc'.mem hkey
      rw [ih hc']

/-- The authority key of each record is the subject key of the next one. -/
theorem isChain (h : IsIssuerChain rs r c) :
    c.IsChain fun r s => r.authorityKey = some s.subjectKey := by
  induction h with
  | anchor => exact .singleton _
  | issued hr h hc ih => cases hc <;> exact .cons_cons h.2 ih

end IsIssuerChain

/-! ### The invariant -/

/-- The entries are the records in the order in which they came, each linked to its issuer. -/
structure IsFilledWith (t : IssuerIndex) (rs : List Record) : Prop where
  consistent : t.IsConsistent
  records_eq : t.entries.toList.map (·.record) = rs
  parent_eq_some : ∀ id e, t.get? id = some e → ∀ p, e.parent = some p ↔
    ∃ f, t.get? p = some f ∧ f.record.IsIssuerOf e.record

theorem isFilledWith_empty : empty.IsFilledWith [] where
  consistent := isConsistent_empty
  records_eq := rfl
  parent_eq_some id e h := by simp [get?, empty] at h

namespace IsFilledWith

variable {t : IssuerIndex} {rs : List Record} {r : Record} {id : EntryId} {e : IssuerEntry}

theorem mem_iff (ht : t.IsFilledWith rs) : r ∈ rs ↔ ∃ id e, t.get? id = some e ∧ e.record = r := by
  simp only [← ht.records_eq, List.mem_map, mem_entries_iff]
  exact ⟨fun ⟨e, ⟨id, h⟩, hr⟩ => ⟨id, e, h, hr⟩, fun ⟨id, e, h, hr⟩ => ⟨e, ⟨id, h⟩, hr⟩⟩

theorem find?_eq_none (ht : t.IsFilledWith rs) {k : KeyIdentifier}
    (hkey : ∀ s ∈ rs, s.subjectKey ≠ k) : t.find? k = none := by
  refine Option.eq_none_iff_forall_ne_some.mpr fun id hid => ?_
  obtain ⟨e, he, hekey⟩ := (ht.consistent k id).mp hid
  exact hkey e.record (ht.mem_iff.mpr ⟨id, e, he, rfl⟩) hekey

/-- A record with a new key that is not the issuer of an earlier one is added, and linked to its
    own issuer if that is there. -/
theorem exists_insertFound (ht : t.IsFilledWith rs) (hkey : ∀ s ∈ rs, s.subjectKey ≠ r.subjectKey)
    (hissues : ∀ s ∈ rs, ¬r.IsIssuerOf s) :
    ∃ t', t.insertFound r = .ok t' ∧ t'.IsFilledWith (rs ++ [r]) := by
  have hnew : t.find? r.subjectKey = none := ht.find?_eq_none hkey
  have hvalid : t.isValidParent (r.authorityKey.bind t.find?) = true := by
    rw [isValidParent, Option.all_eq_true]
    intro p hp
    obtain ⟨k, -, hk⟩ := Option.bind_eq_some_iff.mp hp
    obtain ⟨f, hf, -⟩ := (ht.consistent k p).mp hk
    exact decide_eq_true (position_lt_of_get? hf)
  refine ⟨t.push ⟨r, r.authorityKey.bind t.find?⟩ hvalid, ?_, ?_⟩
  · simp [insertFound, insert, hvalid, hnew]
  refine ⟨ht.consistent.push hvalid hnew, ?_, fun id e he p => ?_⟩
  · rw [push, Array.toList_push, List.map_append, ht.records_eq]
    rfl
  rw [get?_push] at he
  split at he
  · -- the new entry: what the map finds for its authority key is another entry
    obtain rfl := Option.some.inj he
    simp only [Option.bind_eq_some_iff, get?_push]
    constructor
    · rintro ⟨k, hk, hp⟩
      obtain ⟨f, hf, rfl⟩ := (ht.consistent k p).mp hp
      have hlt := position_lt_of_get? hf
      have hmem := ht.mem_iff.mpr ⟨p, f, hf, rfl⟩
      exact ⟨f, by rw [if_neg (by omega), hf], fun h => hkey _ hmem (h ▸ rfl), hk⟩
    · rintro ⟨f, hf, hne, hk⟩
      split at hf
      · exact absurd (Option.some.inj hf ▸ rfl) hne
      · exact ⟨_, hk, (ht.consistent _ p).mpr ⟨f, hf, rfl⟩⟩
  · -- an earlier entry: the new one is not its issuer
    rw [ht.parent_eq_some id e he p, get?_push]
    have hmem := ht.mem_iff.mpr ⟨id, e, he, rfl⟩
    constructor
    · rintro ⟨f, hf, hissuer⟩
      have hlt := position_lt_of_get? hf
      exact ⟨f, by rw [if_neg (by omega), hf], hissuer⟩
    · rintro ⟨f, hf, hissuer⟩
      split at hf
      · obtain rfl := Option.some.inj hf
        exact absurd hissuer (hissues _ hmem)
      · exact ⟨f, hf, hissuer⟩

/-- What an entry is linked to is what its record was issued by. -/
theorem isIssuerChain (ht : t.IsFilledWith rs) {c : List IssuerEntry} (he : t.get? id = some e)
    (h : t.Ascends id c) : IsIssuerChain rs e.record (c.map (·.record)) := by
  induction h generalizing e with
  | @anchor id f hf hp =>
    obtain rfl := Option.some.inj (he.symm.trans hf)
    refine .anchor (ht.mem_iff.mpr ⟨id, e, he, rfl⟩) fun s hs hissuer => ?_
    obtain ⟨p, f, hf, rfl⟩ := ht.mem_iff.mp hs
    have hlink := (ht.parent_eq_some id e he p).mpr ⟨f, hf, hissuer⟩
    rw [hp] at hlink
    simp at hlink
  | @issued id p f c hf hp hc ih =>
    obtain rfl := Option.some.inj (he.symm.trans hf)
    obtain ⟨f, hf, hissuer⟩ := (ht.parent_eq_some id e he p).mp hp
    exact .issued (ht.mem_iff.mpr ⟨id, e, he, rfl⟩) hissuer (ih hf)

end IsFilledWith

/-- Records of different keys can be added in any order in which issuers come first. -/
theorem exists_fill {rs : List Record} (hkeys : (rs.map (·.subjectKey)).Nodup)
    (h : IssuersFirst rs) : ∃ t, fill rs = .ok t ∧ t.IsFilledWith rs := by
  induction rs using List.reverseRecOn with
  | nil => exact ⟨empty, rfl, isFilledWith_empty⟩
  | append_singleton rs r ih =>
    rw [List.map_append, List.nodup_append] at hkeys
    obtain ⟨hbefore, -, hlast⟩ := List.pairwise_append.mp h
    obtain ⟨t, hfill, ht⟩ := ih hkeys.1 hbefore
    have hnew : ∀ s ∈ rs, s.subjectKey ≠ r.subjectKey := fun s hs =>
      hkeys.2.2 _ (List.mem_map_of_mem hs) _ (List.mem_singleton.mpr rfl)
    obtain ⟨t', hinsert, ht'⟩ := ht.exists_insertFound hnew fun s hs => by simpa using hlast s hs
    refine ⟨t', ?_, ht'⟩
    rw [fill] at hfill
    rw [fill, List.foldlM_append, hfill]
    exact (bind_pure (t.insertFound r)).trans hinsert

/-! ### What can be seen of an index -/

/-- An index shows the graph of issuers among some records. -/
structure Depicts (t : IssuerIndex) (rs : List Record) : Prop where
  /-- All records are listed by their keys. -/
  perm : t.records.Perm rs
  ascending : t.records.Pairwise fun r s => r.subjectKey.octets < s.subjectKey.octets
  /-- The chain from the key of a record goes up to one whose issuer is not there. -/
  chainOf?_eq_some : ∀ r ∈ rs, ∃ c, t.chainOf? r.subjectKey = some c ∧ IsIssuerChain rs r c
  /-- From any other key there is none. -/
  chainOf?_eq_none : ∀ k, (∀ r ∈ rs, r.subjectKey ≠ k) → t.chainOf? k = none
  /-- Along the chain from any entry, the authority key of each is the subject key of the next. -/
  isChain : ∀ id c, t.chain? id = some c →
    c.IsChain fun e f => e.record.authorityKey = some f.record.subjectKey

theorem IsFilledWith.depicts {t : IssuerIndex} {rs : List Record} (ht : t.IsFilledWith rs) :
    t.Depicts rs where
  perm := ht.records_eq ▸ ht.consistent.perm_toSortedList.map _
  ascending := List.pairwise_map.mpr ht.consistent.ascending
  chainOf?_eq_some r hr := by
    obtain ⟨id, e, he, rfl⟩ := ht.mem_iff.mp hr
    obtain ⟨c, hc, hascends⟩ := exists_chain he
    have hfind := (ht.consistent e.key id).mpr ⟨e, he, rfl⟩
    refine ⟨_, ?_, ht.isIssuerChain he hascends⟩
    rw [IssuerEntry.key] at hfind
    rw [chainOf?, hfind, Option.bind_some, hc, Option.map_some]
  chainOf?_eq_none k hk := by
    rw [chainOf?, ht.find?_eq_none hk, Option.bind_none]
  isChain id c hc := by
    have hid : id.position < t.size := by
      by_contra hle
      rw [chain?, if_neg hle] at hc
      simp at hc
    obtain ⟨c', hc', hascends⟩ := exists_chain (Array.getElem?_eq_getElem hid)
    obtain rfl := Option.some.inj (hc.symm.trans hc')
    exact (List.isChain_map _).mp (ht.isIssuerChain (Array.getElem?_eq_getElem hid) hascends).isChain

namespace Depicts

variable {t t' : IssuerIndex} {rs rs' : List Record}

/-- The keys give the order of the list. -/
theorem records_eq (h : t.Depicts rs) (h' : t'.Depicts rs') (hperm : rs.Perm rs') :
    t.records = t'.records := by
  refine List.Perm.eq_of_pairwise (fun r s _ _ hrs hsr => ?_) h.ascending h'.ascending
    (h.perm.trans (hperm.trans h'.perm.symm))
  exact absurd (List.lt_trans hrs hsr) (List.lt_irrefl _)

theorem chainOf?_eq (h : t.Depicts rs) (h' : t'.Depicts rs') (hperm : rs.Perm rs')
    (hkeys : (rs.map (·.subjectKey)).Nodup) (k : KeyIdentifier) : t.chainOf? k = t'.chainOf? k := by
  by_cases hk : ∃ r ∈ rs, r.subjectKey = k
  · obtain ⟨r, hr, rfl⟩ := hk
    obtain ⟨c, hc, hchain⟩ := h.chainOf?_eq_some r hr
    obtain ⟨c', hc', hchain'⟩ := h'.chainOf?_eq_some r (hperm.mem_iff.mp hr)
    rw [hc, hc', hchain.unique hkeys (hchain'.of_perm hperm.symm)]
  · have hnone : ∀ r ∈ rs, r.subjectKey ≠ k := by simpa using hk
    rw [h.chainOf?_eq_none k hnone, h'.chainOf?_eq_none k fun r hr => hnone r (hperm.mem_iff.mpr hr)]

end Depicts

/-- Records of different keys, in any two orders in which no record comes before that of its
    issuer, give two indexes that show the same: the same list of records and, for every key, the
    same chain of records. -/
theorem fill_of_perm {rs rs' : List Record} (hperm : rs.Perm rs')
    (hkeys : (rs.map (·.subjectKey)).Nodup) (h : IssuersFirst rs) (h' : IssuersFirst rs') :
    ∃ t t', fill rs = .ok t ∧ fill rs' = .ok t' ∧ t.Depicts rs ∧ t'.Depicts rs' ∧
      t.records = t'.records ∧ ∀ k, t.chainOf? k = t'.chainOf? k := by
  obtain ⟨t, hfill, ht⟩ := exists_fill hkeys h
  obtain ⟨t', hfill', ht'⟩ := exists_fill ((hperm.map _).nodup_iff.mp hkeys) h'
  exact ⟨t, t', hfill, hfill', ht.depicts, ht'.depicts, ht.depicts.records_eq ht'.depicts hperm,
    ht.depicts.chainOf?_eq ht'.depicts hperm hkeys⟩

/-- A trust anchor that has issued itself, a CA below it, and one whose issuer is not there. -/
theorem fill_of_perm_sample :
    let anchor := { sampleRecord 1 with authorityKey := some (sampleRecord 1).subjectKey }
    let child := { sampleRecord 2 with authorityKey := some anchor.subjectKey }
    let stray := { sampleRecord 3 with authorityKey := some (sampleRecord 4).subjectKey }
    IssuersFirst [anchor, child, stray] ∧ IssuersFirst [stray, anchor, child] ∧
      ¬IssuersFirst [child, anchor, stray] ∧
      ∃ t t', fill [anchor, child, stray] = .ok t ∧ fill [stray, anchor, child] = .ok t' ∧
        t.records = t'.records ∧ t.chainOf? child.subjectKey = t'.chainOf? child.subjectKey := by
  intro anchor child stray
  have h : IssuersFirst [anchor, child, stray] := by decide +kernel
  have h' : IssuersFirst [stray, anchor, child] := by decide +kernel
  have hperm : [anchor, child, stray].Perm [stray, anchor, child] :=
    (List.perm_append_comm : ([anchor, child] ++ [stray]).Perm ([stray] ++ [anchor, child]))
  have hkeys : ([anchor, child, stray].map (·.subjectKey)).Nodup := by decide +kernel
  obtain ⟨t, t', hfill, hfill', -, -, hrecords, hchain⟩ := fill_of_perm hperm hkeys h h'
  exact ⟨h, h', by decide +kernel, t, t', hfill, hfill', hrecords, hchain _⟩

end IssuerIndex

end ResourcePki

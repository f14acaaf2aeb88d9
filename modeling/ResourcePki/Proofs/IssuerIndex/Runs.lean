import Mathlib.Data.List.Induction
import ResourcePki.Proofs.IssuerIndex.Consistent

/-!
What an index is after any run of requests.

A run keeps a log: each request to add a record, with the answer that was given to it. Whoever adds
a record can only link it to an entry that has been added before, so the links of a run are
identifiers that stand in the log already. The log then says all about the index: its entries are
those of the granted requests, in order, and the identifier that was given out for a request leads
to its entry for ever after. One more request keeps this, whether it is granted or refused.
-/

namespace ResourcePki.IssuerIndex

/-! ### Requests -/

/-- A request to add a record below the entry of its issuer; a trust anchor has none. -/
structure Request where
  record : Record
  parent : Option EntryId

/-- The entry that a request asks for. -/
def Request.entry (q : Request) : IssuerEntry :=
  ⟨q.record, q.parent⟩

/-- Requests with the answers that have been given to them. -/
abbrev Log := List (Request × Except IssuerIndexError EntryId)

namespace Log

/-- An identifier has been given out. -/
def HasIssued (log : Log) (id : EntryId) : Prop :=
  ∃ q, (q, .ok id) ∈ log

/-- A request links to nothing or to an entry whose identifier has been given out. -/
def Allows (log : Log) (q : Request) : Prop :=
  ∀ p ∈ q.parent, log.HasIssued p

/-- The entry that has been added by a request, if it has been granted. -/
def entry? : Request × Except IssuerIndexError EntryId → Option IssuerEntry
  | (q, .ok _) => some q.entry
  | (_, .error _) => none

/-- The entries that have been added, in order. -/
def entries (log : Log) : List IssuerEntry :=
  log.filterMap entry?

theorem entries_append (log log' : Log) : (log ++ log').entries = log.entries ++ log'.entries :=
  List.filterMap_append

end Log

/-- The index after a request, and the answer to it. -/
def serve (t : IssuerIndex) (q : Request) : IssuerIndex × Except IssuerIndexError EntryId :=
  t.insert q.record q.parent

/-- Goes on with one more request. -/
def goOn (s : IssuerIndex × Log) (q : Request) : IssuerIndex × Log :=
  ((s.1.serve q).1, s.2 ++ [(q, (s.1.serve q).2)])

/-- The index and the log after some requests to one without entries. -/
def run (qs : List Request) : IssuerIndex × Log :=
  qs.foldl goOn (empty, [])

/-- Every request links to nothing or to an entry whose identifier has been given out before. -/
def LinksBack (qs : List Request) : Prop :=
  ∀ before q after, qs = before ++ q :: after → (run before).2.Allows q

theorem run_concat (qs : List Request) (q : Request) : run (qs ++ [q]) = goOn (run qs) q := by
  rw [run, List.foldl_append]
  rfl

theorem LinksBack.of_append {qs more : List Request} (h : LinksBack (qs ++ more)) :
    LinksBack qs := by
  rintro before q after rfl
  exact h before q (after ++ more) (by simp)

theorem LinksBack.concat {qs : List Request} {q : Request} (h : LinksBack qs)
    (hq : (run qs).2.Allows q) : LinksBack (qs ++ [q]) := by
  intro before q' after heq
  rcases List.eq_nil_or_concat after with rfl | ⟨init, last, rfl⟩
  · obtain ⟨rfl, hlast⟩ := List.append_inj' heq rfl
    exact (List.cons.inj hlast).1 ▸ hq
  · rw [List.concat_eq_append, ← List.cons_append, ← List.append_assoc] at heq
    exact h before q' init (List.append_inj' heq rfl).1

/-! ### The invariant -/

/-- The log says what the index is. -/
structure Reflects (t : IssuerIndex) (log : Log) : Prop where
  consistent : t.IsConsistent
  entries_eq : t.entries.toList = log.entries
  get?_eq : ∀ q id, (q, .ok id) ∈ log → t.get? id = some q.entry
  hasIssued : ∀ id e, t.get? id = some e → log.HasIssued id

theorem reflects_empty : empty.Reflects [] where
  consistent := isConsistent_empty
  entries_eq := rfl
  get?_eq _ _ h := absurd h List.not_mem_nil
  hasIssued id e h := by simp [get?, empty] at h

namespace Reflects

variable {t : IssuerIndex} {log : Log} {q : Request}

theorem isValidParent (ht : t.Reflects log) (hq : log.Allows q) :
    t.isValidParent q.parent = true := by
  rw [IssuerIndex.isValidParent, Option.all_eq_true]
  intro p hp
  obtain ⟨q', hq'⟩ := hq p hp
  exact decide_eq_true (position_lt_of_get? (ht.get?_eq q' p hq'))

/-- A key that has been added is refused, and nothing else is done. -/
theorem serve_of_mem (ht : t.Reflects log) (hq : log.Allows q)
    (hkey : ∃ e ∈ log.entries, e.key = q.record.subjectKey) :
    t.serve q = (t, .error (.duplicateKey q.record.subjectKey)) := by
  obtain ⟨e, he, hkey⟩ := hkey
  rw [← ht.entries_eq, mem_entries_iff] at he
  obtain ⟨id, hid⟩ := he
  have hfind := (ht.consistent q.record.subjectKey id).mpr ⟨e, hid, hkey⟩
  simp [serve, insert, ht.isValidParent hq, hfind]

/-- A new key is added behind the others. -/
theorem serve_of_not_mem (ht : t.Reflects log) (hq : log.Allows q)
    (hkey : ∀ e ∈ log.entries, e.key ≠ q.record.subjectKey) :
    t.find? q.record.subjectKey = none ∧ ∃ h : t.isValidParent q.entry.parent = true,
      t.serve q = (t.push q.entry h, .ok ⟨t.size⟩) := by
  have hnone : t.find? q.record.subjectKey = none := by
    rw [Option.eq_none_iff_forall_ne_some]
    intro id hid
    obtain ⟨e, he, hekey⟩ := (ht.consistent _ id).mp hid
    have hmem := mem_entries_iff.mpr ⟨id, he⟩
    rw [ht.entries_eq] at hmem
    exact hkey e hmem hekey
  have hparent := ht.isValidParent hq
  refine ⟨hnone, hparent, ?_⟩
  simp only [serve, insert, hparent, hnone, Option.isSome_none, Bool.false_eq_true, if_false,
    dite_true]
  rfl

theorem refused (ht : t.Reflects log) (error : IssuerIndexError) :
    t.Reflects (log ++ [(q, .error error)]) where
  consistent := ht.consistent
  entries_eq := by
    rw [Log.entries_append, ht.entries_eq]
    exact (List.append_nil _).symm
  get?_eq q' id h := by
    rcases List.mem_append.mp h with h | h
    · exact ht.get?_eq q' id h
    · simp at h
  hasIssued id e h := by
    obtain ⟨q', hq'⟩ := ht.hasIssued id e h
    exact ⟨q', List.mem_append_left _ hq'⟩

theorem granted (ht : t.Reflects log) (hnew : t.find? q.record.subjectKey = none)
    (h : t.isValidParent q.entry.parent = true) :
    (t.push q.entry h).Reflects (log ++ [(q, .ok ⟨t.size⟩)]) where
  consistent := ht.consistent.push h hnew
  entries_eq := by
    rw [Log.entries_append, ← ht.entries_eq]
    exact Array.toList_push
  get?_eq q' id hmem := by
    rcases List.mem_append.mp hmem with hmem | hmem
    · exact get?_push_of_get? h (ht.get?_eq q' id hmem)
    · rw [List.mem_singleton, Prod.mk.injEq, Except.ok.injEq] at hmem
      obtain ⟨rfl, rfl⟩ := hmem
      rw [get?_push, if_pos rfl]
  hasIssued id e he := by
    rw [get?_push] at he
    split at he
    · rename_i hlast
      exact ⟨q, List.mem_append_right _ (by simp [← hlast])⟩
    · obtain ⟨q', hq'⟩ := ht.hasIssued id e he
      exact ⟨q', List.mem_append_left _ hq'⟩

/-- One more request keeps the invariant. -/
theorem goOn (ht : t.Reflects log) (hq : log.Allows q) :
    (IssuerIndex.goOn (t, log) q).1.Reflects (IssuerIndex.goOn (t, log) q).2 := by
  rw [IssuerIndex.goOn]
  by_cases hkey : ∃ e ∈ log.entries, e.key = q.record.subjectKey
  · rw [ht.serve_of_mem hq hkey]
    exact ht.refused _
  · obtain ⟨hnew, h, hserve⟩ := ht.serve_of_not_mem hq (by simpa using hkey)
    rw [hserve]
    exact ht.granted hnew h

end Reflects

theorem reflects_run {qs : List Request} (h : LinksBack qs) : (run qs).1.Reflects (run qs).2 := by
  induction qs using List.reverseRecOn with
  | nil => exact reflects_empty
  | append_singleton qs q ih =>
    rw [run_concat]
    exact (ih h.of_append).goOn (h qs q [] rfl)

/-! ### Runs -/

theorem log_grows (qs more : List Request) : (run qs).2 <+: (run (qs ++ more)).2 := by
  induction more using List.reverseRecOn with
  | nil => exact (List.append_nil qs).symm ▸ List.prefix_rfl
  | append_singleton more q ih =>
    rw [← List.append_assoc, run_concat]
    exact ih.trans (List.prefix_append _ _)

/-- What an index is by the log of the requests that it has been filled with. -/
structure IsIndexOf (log : Log) (t : IssuerIndex) : Prop where
  /-- A key that has been added is refused, and the index stays as it is. -/
  refuses : ∀ q, log.Allows q → (∃ e ∈ log.entries, e.key = q.record.subjectKey) →
    t.serve q = (t, .error (.duplicateKey q.record.subjectKey))
  /-- Any other key is added. -/
  grants : ∀ q, log.Allows q → (∀ e ∈ log.entries, e.key ≠ q.record.subjectKey) →
    ∃ t' id, t.serve q = (t', .ok id)
  /-- The identifiers of the entries are those that have been given out. -/
  isSome_get? : ∀ id, (t.get? id).isSome ↔ log.HasIssued id
  get?_eq : ∀ q id, (q, .ok id) ∈ log → t.get? id = some q.entry
  find?_eq_some : ∀ k id, t.find? k = some id ↔ ∃ e, t.get? id = some e ∧ e.key = k
  id_eq : ∀ id id' e e', t.get? id = some e → t.get? id' = some e' → e.key = e'.key → id = id'
  size_eq : t.size = log.entries.length
  /-- The chain from an entry goes up to one without a link, by way of no entry twice. -/
  chain : ∀ id, log.HasIssued id → ∃ c, t.chain? id = some c ∧ t.Ascends id c ∧
    (c.map (·.key)).Nodup ∧ c.length ≤ t.size
  perm : t.toSortedList.Perm log.entries
  ascending : t.toSortedList.Pairwise fun e f => e.key.octets < f.key.octets

theorem Reflects.isIndexOf {t : IssuerIndex} {log : Log} (ht : t.Reflects log) :
    IsIndexOf log t where
  refuses q hq hkey := ht.serve_of_mem hq hkey
  grants q hq hkey := by
    obtain ⟨-, h, hserve⟩ := ht.serve_of_not_mem hq hkey
    exact ⟨_, _, hserve⟩
  isSome_get? id := by
    constructor
    · intro h
      obtain ⟨e, he⟩ := Option.isSome_iff_exists.mp h
      exact ht.hasIssued id e he
    · rintro ⟨q, hq⟩
      rw [ht.get?_eq q id hq]
      rfl
  get?_eq := ht.get?_eq
  find?_eq_some := ht.consistent
  id_eq _ _ _ _ he hf hkey := ht.consistent.id_eq he hf hkey
  size_eq := by
    rw [← ht.entries_eq]
    exact Array.length_toList.symm
  chain := by
    rintro id ⟨q, hq⟩
    have hget := ht.get?_eq q id hq
    obtain ⟨c, hc, hascends⟩ := exists_chain hget
    have hsize := position_lt_of_get? hget
    have hlength := hascends.length_le
    exact ⟨c, hc, hascends, hascends.nodup_keys ht.consistent, by omega⟩
  perm := ht.entries_eq ▸ ht.consistent.perm_toSortedList
  ascending := ht.consistent.ascending

/-- What an index is after any run of requests, and what stays of it when the run goes on: an
    identifier that has been given out leads to the entry that it was given out for. -/
theorem isIndexOf_run {qs more : List Request} (h : LinksBack (qs ++ more)) :
    IsIndexOf (run qs).2 (run qs).1 ∧
      ∀ q id, (q, .ok id) ∈ (run qs).2 → (run (qs ++ more)).1.get? id = some q.entry := by
  refine ⟨(reflects_run h.of_append).isIndexOf, fun q id hq => ?_⟩
  exact (reflects_run h).get?_eq q id ((log_grows qs more).subset hq)

/-- The record of a CA with a key. -/
def sampleRecord (n : UInt8) : Record where
  role := .ca
    { base := ⟨Octets.ofAscii "rsync://host/module/", by decide +kernel⟩
      manifest := ⟨Octets.ofAscii "rsync://host/module/ca.mft", by decide +kernel⟩
      notification := none }
  ipResources := .empty
  asResources := .empty
  subjectKey := ⟨List.replicate 20 n, List.length_replicate⟩
  authorityKey := none
  caIssuer := none
  crlUri := none
  expires := ⟨0, 0, by decide⟩
  anchorNumber := 0
  certificate := none

/-- A trust anchor, a CA below it, and the key of that CA once more. -/
theorem isIndexOf_run_sample :
    let anchor : Request := ⟨sampleRecord 1, none⟩
    let child : Request := ⟨sampleRecord 2, some ⟨0⟩⟩
    LinksBack ([anchor, child] ++ [child]) ∧
      IsIndexOf (run [anchor, child]).2 (run [anchor, child]).1 ∧
      (run ([anchor, child] ++ [child])).1.get? ⟨1⟩ = some child.entry := by
  intro anchor child
  have hissued : ∀ more, (run ([anchor] ++ more)).2.Allows child := by
    rintro more p hp
    obtain rfl := Option.some.inj hp
    exact ⟨anchor, (log_grows [anchor] more).subset (List.mem_singleton.mpr rfl)⟩
  have hempty : LinksBack [] := by
    rintro before q after h
    simp at h
  have hanchor : LinksBack [anchor] := hempty.concat fun p hp => by simp [anchor] at hp
  have hruns : LinksBack ([anchor, child] ++ [child]) :=
    (hanchor.concat (hissued [])).concat (hissued [child])
  obtain ⟨hindex, hkept⟩ := isIndexOf_run hruns
  have hmem : (child, .ok ⟨1⟩) ∈ (run [anchor, child]).2 := by
    exact List.mem_cons_of_mem _ (List.mem_singleton.mpr rfl)
  exact ⟨hruns, hindex, hkept child ⟨1⟩ hmem⟩

end ResourcePki.IssuerIndex

import Mathlib.Logic.Function.Basic
import ResourcePki.Proofs.IssuerIndex.Runs

/-!
Identifiers of one index in another one.

Several indexes can be filled at a time, by requests that come in any order and link to entries of
any of them. What an index refuses leaves it as it was, so each index is what its own log says. The
identifier that is given out for an entry is the number of entries before it, and nothing in it
tells which index has given it out. Numbers beyond its entries are refused by an index. Any other
number it takes for one that it has given out itself, shows its own entry for it and links to that.
So an index refuses all identifiers of another one only if one of the two has no entries.
-/

namespace ResourcePki.IssuerIndex

variable {t : IssuerIndex} {log : Log} {id : EntryId} {q : Request}

/-! ### Links from anywhere -/

theorem serve_of_not_isValidParent (h : ¬t.isValidParent q.parent) :
    t.serve q = (t, .error .foreignParent) := by
  rw [serve, insert, dif_neg h]

namespace Reflects

theorem hasIssued_iff (ht : t.Reflects log) : log.HasIssued id ↔ id.position < t.size := by
  constructor
  · rintro ⟨q, hq⟩
    exact position_lt_of_get? (ht.get?_eq q id hq)
  · intro h
    exact ht.hasIssued id _ (Array.getElem?_eq_getElem h)

/-- One more request keeps the invariant, wherever its link comes from. -/
theorem goOn_of_any (ht : t.Reflects log) (q : Request) :
    (IssuerIndex.goOn (t, log) q).1.Reflects (IssuerIndex.goOn (t, log) q).2 := by
  by_cases h : t.isValidParent q.parent
  · refine ht.goOn fun p hp => ht.hasIssued_iff.mpr ?_
    rw [IssuerIndex.isValidParent, Option.all_eq_true] at h
    exact of_decide_eq_true (h p hp)
  · rw [IssuerIndex.goOn, serve_of_not_isValidParent h]
    exact ht.refused _

end Reflects

/-! ### Several indexes -/

section

variable {ι : Type} [DecidableEq ι]

/-- Goes on with one more request to one of several indexes. -/
def goOnAt (s : ι → IssuerIndex × Log) (step : ι × Request) : ι → IssuerIndex × Log :=
  Function.update s step.1 (goOn (s step.1) step.2)

/-- Several indexes and their logs after requests to them in any order. -/
def runAll (steps : List (ι × Request)) : ι → IssuerIndex × Log :=
  steps.foldl goOnAt fun _ => (empty, [])

theorem reflects_goOnAt {s : ι → IssuerIndex × Log} (hs : ∀ i, (s i).1.Reflects (s i).2)
    (step : ι × Request) (i : ι) : (goOnAt s step i).1.Reflects (goOnAt s step i).2 := by
  by_cases hi : i = step.1
  · subst hi
    rw [goOnAt, Function.update_self]
    exact (hs step.1).goOn_of_any step.2
  · rw [goOnAt, Function.update_of_ne hi]
    exact hs i

theorem reflects_runAll (steps : List (ι × Request)) :
    ∀ i, (runAll steps i).1.Reflects (runAll steps i).2 := by
  induction steps using List.reverseRecOn with
  | nil => exact fun i => reflects_empty
  | append_singleton steps step ih =>
    rw [runAll, List.foldl_append]
    exact reflects_goOnAt ih step

end

/-! ### Entries that are added below others -/

theorem Ascends.push {e : IssuerEntry} (h : t.isValidParent e.parent) {c : List IssuerEntry}
    (hc : t.Ascends id c) : (t.push e h).Ascends id c := by
  induction hc with
  | anchor he hp => exact .anchor (get?_push_of_get? h he) hp
  | issued he hp _ ih => exact .issued (get?_push_of_get? h he) hp ih

/-- Links leave no choice, so there is only one chain from an entry. -/
theorem Ascends.unique {c c' : List IssuerEntry} (hc : t.Ascends id c) (hc' : t.Ascends id c') :
    c = c' := by
  induction hc generalizing c' with
  | anchor he hp =>
    cases hc' with
    | anchor he' hp' => rw [Option.some.inj (he.symm.trans he')]
    | issued he' hp' _ =>
      obtain rfl := Option.some.inj (he.symm.trans he')
      simp [hp] at hp'
  | issued he hp _ ih =>
    cases hc' with
    | anchor he' hp' =>
      obtain rfl := Option.some.inj (he.symm.trans he')
      simp [hp] at hp'
    | issued he' hp' hc' =>
      obtain rfl := Option.some.inj (he.symm.trans he')
      obtain rfl := Option.some.inj (hp.symm.trans hp')
      rw [ih hc']

/-- The chain from an entry goes on with the chain from the one that it is added below. -/
theorem exists_chain_push {e f : IssuerEntry} (h : t.isValidParent e.parent)
    (hp : e.parent = some id) (hf : t.get? id = some f) :
    ∃ c, t.chain? id = some c ∧ (t.push e h).chain? ⟨t.size⟩ = some (e :: c) := by
  obtain ⟨c, hc, hascends⟩ := exists_chain hf
  have hlast : (t.push e h).get? ⟨t.size⟩ = some e := by rw [get?_push, if_pos rfl]
  obtain ⟨c', hc', hascends'⟩ := exists_chain hlast
  rw [hascends'.unique (.issued hlast hp (hascends.push h))] at hc'
  exact ⟨c, hc, hc'⟩

/-! ### Identifiers from anywhere -/

/-- An index shows nothing for an identifier and adds nothing below it. -/
structure Refuses (t : IssuerIndex) (id : EntryId) : Prop where
  get?_eq : t.get? id = none
  parent?_eq : t.parent? id = none
  chain?_eq : t.chain? id = none
  serve_eq : ∀ r, t.serve ⟨r, some id⟩ = (t, .error .foreignParent)

/-- An index takes an identifier for one that it has given out itself. -/
structure TakesForOwn (log : Log) (t : IssuerIndex) (id : EntryId) : Prop where
  /-- What it shows is an entry of its own. -/
  shows : ∃ q, (q, .ok id) ∈ log ∧ t.get? id = some q.entry ∧ t.parent? id = some q.parent
  /-- What has a taken key is refused for its key only. -/
  refuses : ∀ r, (∃ e ∈ log.entries, e.key = r.subjectKey) →
    t.serve ⟨r, some id⟩ = (t, .error (.duplicateKey r.subjectKey))
  /-- Anything else that is added below the identifier is linked to that entry. -/
  links : ∀ r, (∀ e ∈ log.entries, e.key ≠ r.subjectKey) →
    ∃ t' c, t.serve ⟨r, some id⟩ = (t', .ok ⟨t.size⟩) ∧ t.chain? id = some c ∧
      t'.chain? ⟨t.size⟩ = some (⟨r, some id⟩ :: c)

theorem refuses_iff : t.Refuses id ↔ t.size ≤ id.position := by
  constructor
  · exact fun h => Array.getElem?_eq_none_iff.mp h.get?_eq
  · intro h
    have hget : t.get? id = none := Array.getElem?_eq_none_iff.mpr h
    refine ⟨hget, ?_, if_neg (Nat.not_lt.mpr h), fun r => serve_of_not_isValidParent ?_⟩
    · rw [parent?, hget, Option.map_none]
    · simpa [isValidParent] using h

namespace Reflects

theorem takesForOwn_iff (ht : t.Reflects log) : TakesForOwn log t id ↔ id.position < t.size := by
  constructor
  · rintro ⟨⟨q, hq, hget, -⟩, -, -⟩
    exact position_lt_of_get? hget
  · intro h
    obtain ⟨q, hq⟩ := ht.hasIssued_iff.mpr h
    have hget := ht.get?_eq q id hq
    have hallows : ∀ r, log.Allows ⟨r, some id⟩ := fun r p hp => Option.some.inj hp ▸ ⟨q, hq⟩
    refine ⟨⟨q, hq, hget, ?_⟩, fun r hkey => ?_, fun r hnew => ?_⟩
    · rw [parent?, hget]
      rfl
    · exact ht.serve_of_mem (hallows r) hkey
    · obtain ⟨-, hvalid, hserve⟩ := ht.serve_of_not_mem (hallows r) hnew
      obtain ⟨c, hc, hchain⟩ := exists_chain_push hvalid rfl hget
      exact ⟨_, c, hserve, hc, hchain⟩

/-- An identifier is the number of entries before that for which it is given out. -/
theorem position_eq {before after : Log} (ht : t.Reflects (before ++ (q, .ok id) :: after)) :
    id.position = before.entries.length := by
  have hentries : t.entries.toList = before.entries ++ q.entry :: Log.entries after := by
    rw [ht.entries_eq, Log.entries_append]
    rfl
  have hget : t.get? ⟨before.entries.length⟩ = some q.entry := by
    rw [get?, ← Array.getElem?_toList, hentries, List.getElem?_append_right (Nat.le_refl _),
      Nat.sub_self]
    rfl
  have hissued := ht.get?_eq q id (List.mem_append_right _ List.mem_cons_self)
  exact congrArg EntryId.position (ht.consistent.id_eq hissued hget rfl)

end Reflects

/-- What becomes of the identifiers of an index in another one: an identifier that was given out
    when there were so many entries is refused by an index with no more entries than that, and
    taken for one of its own by any index with more. An index refuses all identifiers of another
    one only if one of them has no entries. -/
theorem foreign_exact {ι : Type} [DecidableEq ι] (steps : List (ι × Request)) (i j : ι) :
    (∀ (before : Log) q id after, (runAll steps i).2 = before ++ (q, .ok id) :: after →
      ((runAll steps j).1.Refuses id ↔ (runAll steps j).1.size ≤ before.entries.length) ∧
      (TakesForOwn (runAll steps j).2 (runAll steps j).1 id ↔
        before.entries.length < (runAll steps j).1.size)) ∧
    ((∀ id, (runAll steps i).2.HasIssued id → (runAll steps j).1.Refuses id) ↔
      (runAll steps i).1.size = 0 ∨ (runAll steps j).1.size = 0) := by
  have hi := reflects_runAll steps i
  have hj := reflects_runAll steps j
  refine ⟨fun before q id after hlog => ?_, fun h => ?_, fun h id hid => ?_⟩
  · rw [hlog] at hi
    rw [← hi.position_eq]
    exact ⟨refuses_iff, hj.takesForOwn_iff⟩
  · by_contra hboth
    rw [not_or] at hboth
    -- each index that has an entry has given out the first identifier
    have hfirst : (runAll steps i).2.HasIssued ⟨0⟩ :=
      hi.hasIssued_iff.mpr (Nat.pos_of_ne_zero hboth.1)
    exact hboth.2 (Nat.le_zero.mp (refuses_iff.mp (h ⟨0⟩ hfirst)))
  · rw [hi.hasIssued_iff] at hid
    rw [refuses_iff]
    omega

/-- Two indexes, the second one with two entries: the first one takes the first of its identifiers
    for its own and refuses the second one. -/
theorem foreign_exact_sample :
    let root : Request := ⟨sampleRecord 1, none⟩
    let other : Request := ⟨sampleRecord 2, none⟩
    let child : Request := ⟨sampleRecord 3, some ⟨0⟩⟩
    let s := runAll [(true, other), (false, root), (true, child)]
    (s true).2 = [(other, .ok ⟨0⟩), (child, .ok ⟨1⟩)] ∧ TakesForOwn (s false).2 (s false).1 ⟨0⟩ ∧
      (s false).1.Refuses ⟨1⟩ := by
  intro root other child s
  have hlog : (s true).2 = [(other, .ok ⟨0⟩), (child, .ok ⟨1⟩)] := rfl
  have hsize : (s false).1.size = 1 := rfl
  have hexact := (foreign_exact [(true, other), (false, root), (true, child)] true false).1
  refine ⟨hlog, (hexact [] other ⟨0⟩ _ hlog).2.mpr ?_, (hexact [(other, .ok ⟨0⟩)] child ⟨1⟩ [] hlog).1.mpr ?_⟩
  · exact hsize ▸ Nat.one_pos
  · exact Nat.le_of_eq hsize

/-- An index gives an entry of its own for the identifier of another index, and adds a record below
    it. -/
theorem foreign_link_taken :
    let s := runAll [(false, ⟨sampleRecord 1, none⟩), (true, ⟨sampleRecord 2, none⟩)]
    (s false).2.HasIssued ⟨0⟩ ∧ (s false).1.get? ⟨0⟩ = some ⟨sampleRecord 1, none⟩ ∧
      (s true).1.get? ⟨0⟩ = some ⟨sampleRecord 2, none⟩ ∧
      ∃ t, (s true).1.serve ⟨sampleRecord 3, some ⟨0⟩⟩ = (t, .ok ⟨1⟩) ∧
        t.parent? ⟨1⟩ = some (some ⟨0⟩) := by
  intro s
  have hlog : (s false).2 = [(⟨sampleRecord 1, none⟩, .ok ⟨0⟩)] := rfl
  refine ⟨⟨_, hlog ▸ List.mem_cons_self⟩, rfl, rfl, _, rfl, rfl⟩

end ResourcePki.IssuerIndex

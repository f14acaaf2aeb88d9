import Mathlib.Data.List.Dedup
import ResourcePki.Proofs.Record.Accepted
import ResourcePki.Proofs.RouterKeyTable.Numbers
import ResourcePki.Proofs.RouterKeyTable.Order
import ResourcePki.Proofs.Time

/-!
What a table holds after any run of operations.

A run amounts to a list of contributions, each a key with what it says of it. An operation that adds
a key contributes just that; one that adds a record contributes the key of a router for each of its
AS numbers, or nothing. The invariant says that for every key the table holds the latest
contribution, and of several that expire last the first; adding one contribution keeps it. Since
the time of expiry is then the largest one of all contributions, it does not depend on their order.
-/

namespace ResourcePki

namespace RouterKeyTable

/-! ### Contributions -/

/-- A key with what an operation says of it. -/
abbrev Contribution := RouterKey × RouterKeyStatus

/-- An operation on a table. -/
inductive Operation where
  | insert (k : RouterKey) (info : RouterKeyStatus)
  | insertRecord (r : Record)

namespace Operation

/-- Carries out an operation. -/
def apply (t : RouterKeyTable) : Operation → RouterKeyTable
  | insert k info => t.insert k info
  | insertRecord r => t.insertRecord r

/-- What an operation contributes to a table with a limit. A router contributes its key once for
    each number that one of its entries holds, if these are not too many together. -/
def contributions (limit : Nat) : Operation → List Contribution
  | insert k info => [(k, info)]
  | insertRecord r =>
    match r.role with
    | .ca _ => []
    | .router key =>
      let numbers := r.asResources.entries.flatMap (·.covered)
      if numbers.length ≤ limit then
        numbers.map fun n => (⟨n, r.subjectKey, key⟩, ⟨r.expires, r.anchorNumber⟩)
      else []

end Operation

/-- The table after some operations on one without keys. -/
def run (limit : Nat) (ops : List Operation) : RouterKeyTable :=
  ops.foldl Operation.apply (withLimit limit)

/-- Some information is what the latest of some contributions says of a key: those before expire
    earlier, and those after do not expire later. -/
def IsLatest (cs : List Contribution) (k : RouterKey) (info : RouterKeyStatus) : Prop :=
  ∃ before after, cs = before ++ (k, info) :: after ∧
    (∀ i, (k, i) ∈ before → i.expires.before info.expires = true) ∧
    (∀ i, (k, i) ∈ after → info.expires.before i.expires = false)

/-! ### Operations as contributions -/

/-- Adds contributions one after the other. -/
def addAll (t : RouterKeyTable) (cs : List Contribution) : RouterKeyTable :=
  cs.foldl (fun t c => t.insert c.1 c.2) t

@[simp] theorem limit_insert (t : RouterKeyTable) (k : RouterKey) (info : RouterKeyStatus) :
    (t.insert k info).limit = t.limit := by
  unfold insert
  split
  · rfl
  · split <;> rfl

@[simp] theorem limit_addAll : ∀ (cs : List Contribution) (t : RouterKeyTable),
    (t.addAll cs).limit = t.limit
  | [], _ => rfl
  | c :: cs, t => (limit_addAll cs (t.insert c.1 c.2)).trans (limit_insert t c.1 c.2)

/-- Adding a record adds what it contributes. -/
theorem insertRecord_eq (t : RouterKeyTable) (r : Record) :
    t.insertRecord r = t.addAll ((Operation.insertRecord r).contributions t.limit) := by
  unfold insertRecord
  rw [Operation.contributions, countAll_eq, numbersOfAll_eq]
  cases r.role with
  | ca repository => rfl
  | router key =>
    dsimp only [Role.routerKey?]
    split
    · rw [if_neg (by omega)]
      rfl
    · rw [if_pos (by omega), addAll, List.foldl_map]

theorem apply_eq (t : RouterKeyTable) (op : Operation) :
    op.apply t = t.addAll (op.contributions t.limit) := by
  cases op with
  | insert k info => rfl
  | insertRecord r => exact t.insertRecord_eq r

/-- Operations add what they contribute, one after the other. -/
theorem foldl_apply_eq : ∀ (ops : List Operation) (t : RouterKeyTable),
    ops.foldl Operation.apply t = t.addAll (ops.flatMap (·.contributions t.limit))
  | [], _ => rfl
  | op :: ops, t => by
    rw [List.foldl_cons, foldl_apply_eq ops, apply_eq, limit_addAll, List.flatMap_cons, addAll,
      addAll, addAll, List.foldl_append]

theorem run_eq (limit : Nat) (ops : List Operation) :
    run limit ops = (withLimit limit).addAll (ops.flatMap (·.contributions limit)) :=
  foldl_apply_eq ops (withLimit limit)

/-! ### The latest contribution -/

theorem IsLatest.mem {cs : List Contribution} {k : RouterKey} {info : RouterKeyStatus}
    (h : IsLatest cs k info) : (k, info) ∈ cs := by
  obtain ⟨before, after, rfl, -, -⟩ := h
  simp

/-- Nothing expires after the latest contribution. -/
theorem IsLatest.not_before {cs : List Contribution} {k : RouterKey} {info i : RouterKeyStatus}
    (h : IsLatest cs k info) (hi : (k, i) ∈ cs) : info.expires.before i.expires = false := by
  obtain ⟨before, after, rfl, hbefore, hafter⟩ := h
  rcases List.mem_append.mp hi with hi | hi
  · exact Time.not_before_of_before (hbefore i hi)
  · rcases List.mem_cons.mp hi with heq | hi
    · rw [(Prod.mk.inj heq).2]
      exact Time.not_before_self _
    · exact hafter i hi

/-- There is only one latest contribution. -/
theorem IsLatest.unique {cs : List Contribution} {k : RouterKey} {i j : RouterKeyStatus}
    (hi : IsLatest cs k i) (hj : IsLatest cs k j) : i = j := by
  obtain ⟨before, after, rfl, hbefore, hafter⟩ := hi
  have hnot := hj.not_before (i := i) (by simp)
  obtain ⟨before', after', heq, hbefore', -⟩ := hj
  rcases List.append_eq_append_iff.mp heq with ⟨l, rfl, hl⟩ | ⟨l, rfl, hl⟩
  · cases l with
    | nil =>
      rw [List.nil_append, List.cons.injEq, Prod.mk.injEq] at hl
      exact hl.1.2
    | cons c l =>
      -- `i` would come before `j`, and expire no earlier
      obtain ⟨rfl, rfl⟩ := List.cons.inj hl
      have := hafter j (by simp)
      rw [hbefore' i (by simp)] at this
      simp at this
  · cases l with
    | nil =>
      rw [List.nil_append, List.cons.injEq, Prod.mk.injEq] at hl
      exact hl.1.2.symm
    | cons c l =>
      obtain ⟨rfl, rfl⟩ := List.cons.inj hl
      have := hbefore j (by simp)
      rw [hnot] at this
      simp at this

/-! ### The invariant -/

/-- What a table holds of each key is the latest of some contributions. -/
structure Reflects (t : RouterKeyTable) (cs : List Contribution) : Prop where
  absent : ∀ k, t.get? k = none → ∀ info, (k, info) ∉ cs
  latest : ∀ k info, t.get? k = some info → IsLatest cs k info

theorem reflects_withLimit (limit : Nat) : (withLimit limit).Reflects [] where
  absent _ _ _ := List.not_mem_nil
  latest k info h := by simp [get?, withLimit] at h

theorem get?_insert_keys (t : RouterKeyTable) (k k' : RouterKey) (info : RouterKeyStatus) :
    get? { t with keys := t.keys.insert k info } k' = if k = k' then some info else t.get? k' := by
  simp only [get?, Std.TreeMap.getElem?_insert, Std.LawfulEqOrd.compare_eq_iff_eq]

/-- What is known of a key after one has been added. -/
theorem get?_insert (t : RouterKeyTable) (k k' : RouterKey) (info : RouterKeyStatus) :
    (t.insert k info).get? k' =
      if k = k' ∧ ∀ old ∈ t.get? k, old.expires.before info.expires = true then some info
      else t.get? k' := by
  unfold insert
  split
  · rename_i hnone
    simp [get?_insert_keys, hnone]
  · rename_i old hold
    split
    · rename_i hlater
      simp [get?_insert_keys, hold, hlater]
    · rename_i hlater
      simp [hold, hlater]

theorem IsLatest.append_self {cs : List Contribution} {k : RouterKey} {info : RouterKeyStatus}
    (h : ∀ i, (k, i) ∈ cs → i.expires.before info.expires = true) :
    IsLatest (cs ++ [(k, info)]) k info :=
  ⟨cs, [], rfl, h, by simp⟩

theorem IsLatest.append {cs : List Contribution} {k : RouterKey} {info : RouterKeyStatus}
    (h : IsLatest cs k info) {c : Contribution}
    (hc : ∀ i, (k, i) = c → info.expires.before i.expires = false) :
    IsLatest (cs ++ [c]) k info := by
  obtain ⟨before, after, rfl, hbefore, hafter⟩ := h
  refine ⟨before, after ++ [c], by simp, hbefore, fun i hi => ?_⟩
  rcases List.mem_append.mp hi with hi | hi
  · exact hafter i hi
  · exact hc i (List.mem_singleton.mp hi)

/-- Adding one contribution keeps the invariant. -/
theorem Reflects.insert {t : RouterKeyTable} {cs : List Contribution} (ht : t.Reflects cs)
    (k : RouterKey) (info : RouterKeyStatus) : (t.insert k info).Reflects (cs ++ [(k, info)]) := by
  refine ⟨fun k' hnone i hi => ?_, fun k' i hi => ?_⟩
  · rw [get?_insert] at hnone
    split at hnone
    · simp at hnone
    · rename_i hkept
      rcases List.mem_append.mp hi with hi | hi
      · exact ht.absent k' hnone i hi
      · obtain ⟨rfl, rfl⟩ := Prod.mk.inj (List.mem_singleton.mp hi)
        exact hkept ⟨rfl, by simp [hnone]⟩
  · rw [get?_insert] at hi
    split at hi
    · rename_i hreplaced
      obtain ⟨rfl, hlater⟩ := hreplaced
      obtain rfl := Option.some.inj hi
      refine IsLatest.append_self fun j hj => ?_
      cases hold : t.get? k with
      | none => exact absurd hj (ht.absent k hold j)
      | some old =>
        exact Time.before_of_not_before ((ht.latest k old hold).not_before hj) (hlater old hold)
    · rename_i hkept
      refine (ht.latest k' i hi).append fun j hj => ?_
      obtain ⟨rfl, rfl⟩ := Prod.mk.inj hj
      rw [← Bool.not_eq_true]
      intro hlater
      refine hkept ⟨rfl, fun old hold => ?_⟩
      rw [hi] at hold
      exact Option.some.inj hold ▸ hlater

theorem Reflects.addAll : ∀ (cs' : List Contribution) {t : RouterKeyTable} {cs : List Contribution},
    t.Reflects cs → (t.addAll cs').Reflects (cs ++ cs')
  | [], t, cs, ht => by
    rw [List.append_nil]
    exact ht
  | c :: cs', t, cs, ht => by
    have := Reflects.addAll cs' (ht.insert c.1 c.2)
    rwa [List.append_assoc, List.singleton_append] at this

/-! ### Runs -/

/-- What a table holds after some contributions, and in which order it lists them. -/
structure IsTableOf (cs : List Contribution) (t : RouterKeyTable) : Prop where
  get?_eq_none : ∀ k, t.get? k = none ↔ ∀ info, (k, info) ∉ cs
  get?_eq_some : ∀ k info, t.get? k = some info ↔ IsLatest cs k info
  mem_toList : ∀ k info, (k, info) ∈ t.toList ↔ t.get? k = some info
  mem_keys : ∀ k, k ∈ t.toList.map Prod.fst ↔ k ∈ cs.map Prod.fst
  once : (t.toList.map Prod.fst).Nodup
  ascending : (t.toList.map Prod.fst).Pairwise RouterKey.Precedes
  size_eq : t.size = (cs.map Prod.fst).dedup.length

/-- All tables of the same contributions hold the same. -/
theorem IsTableOf.get?_eq {cs : List Contribution} {t t' : RouterKeyTable} (h : IsTableOf cs t)
    (h' : IsTableOf cs t') (k : RouterKey) : t.get? k = t'.get? k :=
  Option.ext fun info => (h.get?_eq_some k info).trans (h'.get?_eq_some k info).symm

theorem mem_toList_iff (t : RouterKeyTable) (k : RouterKey) (info : RouterKeyStatus) :
    (k, info) ∈ t.toList ↔ t.get? k = some info :=
  Std.TreeMap.mem_toList_iff_getElem?_eq_some

theorem ascending_toList (t : RouterKeyTable) :
    (t.toList.map Prod.fst).Pairwise RouterKey.Precedes := by
  have hlt : t.keys.toList.Pairwise fun a b => compare a.1 b.1 = .lt :=
    Std.TreeMap.ordered_keys_toList
  exact List.pairwise_map.mpr (hlt.imp RouterKey.order_eq_lt.mp)

theorem nodup_toList (t : RouterKeyTable) : (t.toList.map Prod.fst).Nodup := by
  have hne : t.keys.toList.Pairwise fun a b => ¬compare a.1 b.1 = .eq :=
    Std.TreeMap.distinct_keys_toList
  exact List.pairwise_map.mpr (hne.imp fun h heq => h (Std.LawfulEqOrd.compare_eq_iff_eq.mpr heq))

namespace Reflects

variable {t : RouterKeyTable} {cs : List Contribution}

theorem get?_eq_none (ht : t.Reflects cs) (k : RouterKey) :
    t.get? k = none ↔ ∀ info, (k, info) ∉ cs := by
  refine ⟨ht.absent k, fun h => ?_⟩
  cases hk : t.get? k with
  | none => rfl
  | some info => exact absurd (ht.latest k info hk).mem (h info)

theorem get?_eq_some (ht : t.Reflects cs) (k : RouterKey) (info : RouterKeyStatus) :
    t.get? k = some info ↔ IsLatest cs k info := by
  refine ⟨ht.latest k info, fun h => ?_⟩
  cases hk : t.get? k with
  | none => exact absurd h.mem (ht.absent k hk info)
  | some i => rw [(ht.latest k i hk).unique h]

/-- The keys of the table are those that have been contributed. -/
theorem mem_keys_iff (ht : t.Reflects cs) (k : RouterKey) :
    k ∈ t.toList.map Prod.fst ↔ k ∈ cs.map Prod.fst := by
  simp only [List.mem_map, Prod.exists, exists_and_right, exists_eq_right, mem_toList_iff]
  rw [← not_iff_not, not_exists, not_exists, ← ht.get?_eq_none, Option.eq_none_iff_forall_ne_some]

theorem size_eq (ht : t.Reflects cs) : t.size = (cs.map Prod.fst).dedup.length := by
  have hperm : (t.toList.map Prod.fst).Perm (cs.map Prod.fst).dedup := by
    refine (List.perm_ext_iff_of_nodup t.nodup_toList (List.nodup_dedup _)).mpr fun k => ?_
    rw [List.mem_dedup, ht.mem_keys_iff]
  rw [← hperm.length_eq, List.length_map]
  exact Std.TreeMap.length_toList.symm

theorem isTableOf (ht : t.Reflects cs) : IsTableOf cs t :=
  ⟨ht.get?_eq_none, ht.get?_eq_some, t.mem_toList_iff, ht.mem_keys_iff, t.nodup_toList,
    t.ascending_toList, ht.size_eq⟩

/-- The keys and their times of expiry do not depend on the order of the contributions. -/
theorem expires_eq_of_perm (ht : t.Reflects cs) {t' : RouterKeyTable} {cs' : List Contribution}
    (ht' : t'.Reflects cs') (h : cs.Perm cs') (k : RouterKey) :
    (t.get? k).map (·.expires) = (t'.get? k).map (·.expires) := by
  cases hk : t.get? k with
  | none =>
    have hk' : t'.get? k = none := by
      rw [ht.get?_eq_none] at hk
      exact (ht'.get?_eq_none k).mpr fun info hmem => hk info (h.mem_iff.mpr hmem)
    rw [hk']
  | some i =>
    have hi := ht.latest k i hk
    cases hk' : t'.get? k with
    | none => exact absurd (h.mem_iff.mp hi.mem) (ht'.absent k hk' i)
    | some j =>
      have hj := ht'.latest k j hk'
      exact congrArg some (Time.eq_of_not_before (hi.not_before (h.mem_iff.mpr hj.mem))
        (hj.not_before (h.mem_iff.mp hi.mem)))

end Reflects

theorem reflects_run (limit : Nat) (ops : List Operation) :
    (run limit ops).Reflects (ops.flatMap (·.contributions limit)) := by
  rw [run_eq]
  exact Reflects.addAll _ (reflects_withLimit limit)

/-- What a table holds after any run of operations, and what stays the same of it if they are
    carried out in another order. -/
theorem isTableOf_run {limit : Nat} {ops ops' : List Operation} (h : ops.Perm ops') :
    IsTableOf (ops.flatMap (·.contributions limit)) (run limit ops) ∧
      ∀ k, ((run limit ops).get? k).map (·.expires) = ((run limit ops').get? k).map (·.expires) :=
  ⟨(reflects_run limit ops).isTableOf,
    (reflects_run limit ops).expires_eq_of_perm (reflects_run limit ops') (h.flatMap_right _)⟩

/-- The key of a router. -/
def sampleKey : RouterKey where
  asNumber := ⟨64496⟩
  identifier := ⟨List.replicate 20 7, rfl⟩
  key :=
    { algorithm := ObjectId.ecPublicKey, parameters := [], bits := ⟨0, [4]⟩,
      encoding := Der.sequenceValue (Der.sequenceValue (Der.objectIdValue ObjectId.ecPublicKey)
        ++ Der.bitStringValue ⟨0, [4]⟩),
      decode_eq := by decide +kernel }

/-- What is said of a key under the trust anchor with a number, some seconds into 1970. -/
def sampleStatus (seconds : Fin 60) (number : UInt32) : RouterKeyStatus :=
  ⟨⟨seconds, 0, by omega⟩, number⟩

/-- The operations of the sample run: a key, a router that the key is also certified by and that
    has two more numbers, and the key of another router. -/
def sampleRun (r : Record) (key : PublicKey) : List Operation :=
  [.insert ⟨⟨64496⟩, r.subjectKey, key⟩ (sampleStatus 1 1), .insertRecord r,
    .insert sampleKey (sampleStatus 2 2)]

/-- The certificate of the router expires last, so what it says of the first key counts. -/
theorem isTableOf_run_sample : ∃ r key, Record.ofDer {} Record.sampleRouter = .ok r ∧
    r.role = .router key ∧
    IsTableOf ((sampleRun r key).flatMap (·.contributions 5)) (run 5 (sampleRun r key)) ∧
    (∀ k, ((run 5 (sampleRun r key)).get? k).map (·.expires) =
      ((run 5 (sampleRun r key).reverse).get? k).map (·.expires)) ∧
    (run 5 (sampleRun r key)).get? ⟨⟨64496⟩, r.subjectKey, key⟩ =
      some ⟨r.expires, r.anchorNumber⟩ ∧
    (run 5 (sampleRun r key)).size = 4 := by
  have hsample : (Record.ofDer {} Record.sampleRouter).toOption.all (fun r =>
      r.role.routerKey?.all fun key =>
        (run 5 (sampleRun r key)).get? ⟨⟨64496⟩, r.subjectKey, key⟩ =
          some ⟨r.expires, r.anchorNumber⟩ ∧
        (run 5 (sampleRun r key)).size = 4) = true := by
    decide +kernel
  obtain ⟨r, key, hr, -, hrole, -⟩ := Record.exists_ofDer_sampleRouter
  rw [hr] at hsample
  simp only [Except.toOption, Option.all_some, hrole, Role.routerKey?, decide_eq_true_eq] at hsample
  obtain ⟨htable, hexpires⟩ := isTableOf_run (List.reverse_perm (sampleRun r key)).symm
  exact ⟨r, key, hr, hrole, htable, hexpires, hsample⟩

end RouterKeyTable

end ResourcePki

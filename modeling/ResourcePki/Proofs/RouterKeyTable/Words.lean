import Mathlib.Algebra.Ring.Nat
import ResourcePki.Proofs.RouterKeyTable.Numbers

/-!
AS numbers counted and gone through in machine words.

The numbers of a record are counted in words of 64 bits before any of them is looked at, and those
of a range are gone through in words of 32 bits. Neither may leave the words: a difference is not
negative, a sum is not too large, and the largest number has no successor. Every step that leaves
them gives nothing here. If the ends of all ranges are in order and the sum is small enough, each
step gives something, the count is the number of all numbers that the entries hold, and the loop
over a range comes to an end with its last number, whichever that is.
-/

namespace ResourcePki.RouterKeyTable.Words

/-! ### The count -/

/-- The sum of two words, if it is a word. -/
def add? (a b : UInt64) : Option UInt64 :=
  if a.toNat + b.toNat < 2 ^ 64 then some (a + b) else none

/-- The difference of two words, if it is a word. -/
def sub? (a b : UInt64) : Option UInt64 :=
  if b.toNat ≤ a.toNat then some (a - b) else none

/-- How many AS numbers an entry holds. -/
def countOf? : AsEntry → Option UInt64
  | .inherit => some 0
  | .single _ => some 1
  | .range r => do add? (← sub? r.last.value.toUInt64 r.first.value.toUInt64) 1

/-- How many AS numbers entries hold together with those that have been counted before. -/
def countFrom? (n : UInt64) (es : List AsEntry) : Option UInt64 :=
  es.foldlM (fun n e => do add? n (← countOf? e)) n

theorem exists_add? {a b : UInt64} (h : a.toNat + b.toNat < 2 ^ 64) :
    ∃ c, add? a b = some c ∧ c.toNat = a.toNat + b.toNat :=
  ⟨a + b, if_pos h, by rw [UInt64.toNat_add, Nat.mod_eq_of_lt h]⟩

theorem exists_sub? {a b : UInt64} (h : b.toNat ≤ a.toNat) :
    ∃ c, sub? a b = some c ∧ c.toNat = a.toNat - b.toNat :=
  ⟨a - b, if_pos h, UInt64.toNat_sub_of_le a b (UInt64.le_iff_toNat_le.mpr h)⟩

/-- The ends of a range are in order. -/
def IsOrdered (e : AsEntry) : Prop :=
  ∀ r, e = .range r → r.first.toNat ≤ r.last.toNat

theorem exists_countOf? {e : AsEntry} (h : IsOrdered e) :
    ∃ n, countOf? e = some n ∧ n.toNat = e.covered.length := by
  rw [← countOf_eq]
  cases e with
  | inherit => exact ⟨0, rfl, rfl⟩
  | single n => exact ⟨1, rfl, rfl⟩
  | range r =>
    have hle : r.first.value.toUInt64.toNat ≤ r.last.value.toUInt64.toNat := h r rfl
    have hlt : r.last.value.toUInt64.toNat < 2 ^ 32 := r.last.toNat_lt
    obtain ⟨d, hd, hdiff⟩ := exists_sub? hle
    obtain ⟨n, hn, hsum⟩ := exists_add? (a := d) (b := 1) (by
      show d.toNat + 1 < 2 ^ 64
      omega)
    refine ⟨n, ?_, ?_⟩
    · rw [countOf?, hd]
      exact hn
    · rw [hsum, hdiff]
      show r.last.toNat - r.first.toNat + 1 = r.last.toNat + 1 - r.first.toNat
      exact (Nat.sub_add_comm hle).symm

/-- The count of all entries is exact if it fits into a word; what has been counted so far is never
    more than the whole. -/
theorem exists_countFrom? : ∀ {es : List AsEntry} {n : UInt64}, (∀ e ∈ es, IsOrdered e) →
    n.toNat + (es.map (·.covered.length)).sum < 2 ^ 64 →
    ∃ m, countFrom? n es = some m ∧ m.toNat = n.toNat + (es.map (·.covered.length)).sum
  | [], n, _, _ => ⟨n, rfl, rfl⟩
  | e :: es, n, hordered, hfits => by
    rw [List.map_cons, List.sum_cons] at hfits ⊢
    obtain ⟨k, hk, hcount⟩ := exists_countOf? (hordered e List.mem_cons_self)
    obtain ⟨l, hl, hsum⟩ := exists_add? (a := n) (b := k) (by omega)
    have hrest : ∀ f ∈ es, IsOrdered f := fun f hf => hordered f (List.mem_cons_of_mem e hf)
    obtain ⟨m, hm, htotal⟩ := exists_countFrom? (n := l) hrest (by omega)
    refine ⟨m, ?_, by omega⟩
    rw [countFrom?, List.foldlM_cons, hk]
    show (add? n k >>= fun l => countFrom? l es) = some m
    rw [hl]
    exact hm

/-! ### The loop -/

theorem toNat_succ {a b : UInt32} (h : a < b) : (a + 1).toNat = a.toNat + 1 := by
  rw [UInt32.toNat_add]
  exact Nat.mod_eq_of_lt (Nat.lt_of_le_of_lt (UInt32.lt_iff_toNat_lt.mp h) b.toNat_lt)

/-- The words from one to another. Only a word that is not the last one has to have a successor. -/
def upTo (first last : UInt32) : List UInt32 :=
  if first < last then first :: upTo (first + 1) last
  else if first = last then [first]
  else []
termination_by last.toNat - first.toNat
decreasing_by
  rename_i h
  have hlt := UInt32.lt_iff_toNat_lt.mp h
  rw [toNat_succ h]
  omega

/-- The AS numbers that an entry holds, as words. -/
def numbersOf : AsEntry → List UInt32
  | .inherit => []
  | .single n => [n.value]
  | .range r => upTo r.first.value r.last.value

theorem map_upTo (first last : UInt32) : (upTo first last).map UInt32.toNat =
    List.range' first.toNat (last.toNat + 1 - first.toNat) := by
  fun_induction upTo first last with
  | case1 first h ih =>
    have hlt := UInt32.lt_iff_toNat_lt.mp h
    rw [List.map_cons, ih, toNat_succ h, show last.toNat + 1 - first.toNat
      = last.toNat + 1 - (first.toNat + 1) + 1 by omega, List.range'_succ]
  | case2 h => simp
  | case3 first hlt hne =>
    have hgt : last.toNat < first.toNat := by
      have hle := Nat.not_lt.mp fun h => hlt (UInt32.lt_iff_toNat_lt.mpr h)
      exact Nat.lt_of_le_of_ne hle fun h => hne (UInt32.toNat_inj.mp h.symm)
    rw [show last.toNat + 1 - first.toNat = 0 by omega]
    rfl

/-- The loop goes through the numbers that an entry holds. -/
theorem map_numbersOf (e : AsEntry) : (numbersOf e).map AsNumber.mk = RouterKeyTable.numbersOf e := by
  cases e with
  | inherit => rfl
  | single n => rfl
  | range r =>
    have hword : ∀ w : UInt32, AsNumber.mk w = AsNumber.ofNat w.toNat := fun w => by
      rw [AsNumber.ofNat, UInt32.ofNat_toNat]
    calc (upTo r.first.value r.last.value).map AsNumber.mk
        = (upTo r.first.value r.last.value).map (AsNumber.ofNat ∘ UInt32.toNat) :=
          List.map_congr_left fun w _ => hword w
      _ = ((upTo r.first.value r.last.value).map UInt32.toNat).map AsNumber.ofNat :=
          List.map_map.symm
      _ = RouterKeyTable.numbersOf (.range r) := by
          rw [map_upTo]
          rfl

/-! ### Records -/

/-- Adds the key of a record for all AS numbers of the record, unless there are too many of them. -/
def insertRecord? (t : RouterKeyTable) (r : Record) : Option RouterKeyTable :=
  match r.role.routerKey? with
  | none => some t
  | some key => do
    let count ← countFrom? 0 r.asResources.entries
    if count.toNat > t.limit then return t
    return (r.asResources.entries.flatMap numbersOf).foldl
      (fun t n => t.insert ⟨⟨n⟩, r.subjectKey, key⟩ ⟨r.expires, r.anchorNumber⟩) t

/-- If the count is exact, the words make no difference. -/
theorem insertRecord?_eq {t : RouterKeyTable} {r : Record} {count : UInt64}
    (hcount : countFrom? 0 r.asResources.entries = some count)
    (hexact : count.toNat = (r.asResources.entries.map (·.covered.length)).sum) :
    insertRecord? t r = some (t.insertRecord r) := by
  have hnat : count.toNat = countAll r.asResources := by
    rw [hexact, countAll_eq, List.length_flatMap]
  have hnumbers : (r.asResources.entries.flatMap numbersOf).map AsNumber.mk
      = numbersOfAll r.asResources := by
    rw [List.map_flatMap, funext map_numbersOf]
    rfl
  unfold insertRecord? insertRecord
  cases r.role.routerKey? with
  | none => rfl
  | some key =>
    dsimp only
    rw [hcount, ← hnat, ← hnumbers, List.foldl_map]
    show (if count.toNat > t.limit then some t else some _) = _
    split
    · rfl
    · rfl

end ResourcePki.RouterKeyTable.Words

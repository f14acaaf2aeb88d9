import Mathlib.Data.List.Nodup
import ResourcePki.Proofs.JsonValue.Written
import ResourcePki.Proofs.Reading
import ResourcePki.Record.Json

/-!
What is taken out of JSON values is what has been put into them.

Numbers are taken if they are in range, lists item by item, and a value that may be missing unless it
is null. Of the fields of an object each is found by its name, since no name stands there twice.
-/

namespace ResourcePki.JsonValue

variable {α : Type}

/-! ### Texts, numbers, lists and values that may be missing -/

theorem text?_ofText_bind (s : String) (f : String → Option α) : ((ofText s).text? >>= f) = f s :=
  rfl

theorem nat?_ofNat {largest n : Nat} (h : n ≤ largest) : nat? largest (ofNat n) = some n := by
  rw [ofNat, nat?, Decimal.readOn_digits n h]
  rfl

theorem le_of_nat? {largest n : Nat} {v : JsonValue} (h : nat? largest v = some n) :
    n ≤ largest := by
  unfold nat? at h
  split at h
  · rename_i cs
    exact Decimal.le_of_readOn (Nat.zero_le _) (toOption_eq_some.mp h)
  · simp at h

theorem mapM_map_eq_some {β γ : Type} {f : β → Option γ} {g : α → β} {k : α → γ} :
    ∀ {as : List α}, (∀ a ∈ as, f (g a) = some (k a)) → (as.map g).mapM f = some (as.map k)
  | [], _ => rfl
  | a :: as, h => by
    rw [List.map_cons, List.mapM_cons, h a List.mem_cons_self,
      mapM_map_eq_some fun b hb => h b (List.mem_cons_of_mem a hb)]
    rfl

theorem exists_of_mapM_eq_some {β : Type} {f : α → Option β} :
    ∀ {as : List α} {bs : List β}, as.mapM f = some bs → ∀ b ∈ bs, ∃ a, f a = some b
  | [], bs, h, b, hb => by
    rw [List.mapM_nil] at h
    obtain rfl := Option.some.inj h
    simp at hb
  | a :: as, bs, h, b, hb => by
    rw [List.mapM_cons] at h
    obtain ⟨c, hc, h⟩ := Option.bind_eq_some_iff.mp h
    obtain ⟨cs, hcs, h⟩ := Option.bind_eq_some_iff.mp h
    obtain rfl := Option.some.inj h
    rcases List.mem_cons.mp hb with rfl | hb
    · exact ⟨a, hc⟩
    · exact exists_of_mapM_eq_some hcs b hb

variable {read : JsonValue → Option α} {write : α → JsonValue}

theorem list?_array {as : List α} (h : ∀ a ∈ as, read (write a) = some a) :
    list? read (.array (as.map write)) = some as := by
  rw [list?, mapM_map_eq_some h, List.map_id']

theorem exists_of_list? {v : JsonValue} {as : List α} (h : list? read v = some as) :
    ∀ a ∈ as, ∃ w, read w = some a := by
  unfold list? at h
  split at h
  · exact exists_of_mapM_eq_some h
  · simp at h

theorem optionalField?_ofOption {o : Option α} (h : ∀ a ∈ o, read (write a) = some a)
    (hnull : ∀ a ∈ o, write a ≠ .null) : optionalField? read (some (ofOption write o)) = some o := by
  cases o with
  | none => rfl
  | some a =>
    rw [optionalField?, Option.getD_some, ofOption, option?, h a rfl]
    · rfl
    · exact hnull a rfl

/-! ### Fields -/

theorem valuesOf_cons (m : String × JsonValue) (members : List (String × JsonValue))
    (name : String) : valuesOf (keyed (m :: members)) name
      = if m.1 = name then m.2 :: valuesOf (keyed members) name
        else valuesOf (keyed members) name := by
  by_cases h : m.1 = name
  · simp [keyed, valuesOf, h]
  · simp [keyed, valuesOf, h]

theorem valuesOf_of_not_mem {name : String} : ∀ {members : List (String × JsonValue)},
    name ∉ members.map Prod.fst → valuesOf (keyed members) name = []
  | [], _ => rfl
  | m :: members, h => by
    rw [List.map_cons, List.mem_cons, not_or] at h
    rw [valuesOf_cons, if_neg (Ne.symm h.1), valuesOf_of_not_mem h.2]

/-- Where no name stands twice, a name has one value. -/
theorem valuesOf_of_mem {name : String} {v : JsonValue} :
    ∀ {members : List (String × JsonValue)}, (members.map Prod.fst).Nodup → (name, v) ∈ members →
      valuesOf (keyed members) name = [v]
  | m :: members, hd, hm => by
    rw [List.map_cons, List.nodup_cons] at hd
    rw [valuesOf_cons]
    rcases List.mem_cons.mp hm with rfl | hm
    · rw [if_pos rfl, valuesOf_of_not_mem hd.1]
    · have hne : m.1 ≠ name := fun heq => hd.1 (heq ▸ List.mem_map_of_mem hm)
      rw [if_neg hne, valuesOf_of_mem hd.2 hm]

/-- All fields of an object are found by their names. -/
theorem fields?_zip {names : List String} {values : List JsonValue} (hd : names.Nodup)
    (hlength : names.length = values.length) :
    fields? names (ofMembers (names.zip values)) = some (values.map some) := by
  have hnames : (names.zip values).map Prod.fst = names :=
    List.map_fst_zip (Nat.le_of_eq hlength)
  have hvalues : (names.zip values).map Prod.snd = values :=
    List.map_snd_zip (Nat.le_of_eq hlength.symm)
  have hkeys : ¬(keyed (names.zip values)).any (·.1.isNone) = true := by simp [keyed]
  have hfound : ((names.zip values).map Prod.fst).mapM (member? (keyed (names.zip values)))
      = some ((names.zip values).map fun m => some m.2) := by
    refine mapM_map_eq_some fun m hm => ?_
    rw [member?, valuesOf_of_mem (hnames.symm ▸ hd) hm]
  show (if (keyed (names.zip values)).any (·.1.isNone) = true then none
    else names.mapM (member? (keyed (names.zip values)))) = _
  rw [hnames] at hfound
  rw [if_neg hkeys, hfound]
  nth_rewrite 2 [← hvalues]
  rw [List.map_map]
  rfl

theorem fields?_pair {name other : String} (hne : name ≠ other) (v w : JsonValue) :
    fields? [name, other] (ofMembers [(name, v), (other, w)]) = some [some v, some w] :=
  @fields?_zip [name, other] [v, w] (by simpa using hne) rfl

end ResourcePki.JsonValue

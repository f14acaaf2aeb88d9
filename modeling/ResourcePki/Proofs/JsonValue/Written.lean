import ResourcePki.JsonValue.Parser
import ResourcePki.JsonValue.Printer
import ResourcePki.Proofs.Decimal

/-!
JSON values are read from their text.

A value that can be written consists of truth values, natural numbers, texts, arrays and objects.
Characters of a text stand for themselves or behind an escape, one after the other, so texts are
read character by character. The digits of a number end where a comma or a bracket follows. Arrays
and objects are read item by item; as a bound of the recursion the length of the text is enough,
since every item takes one step and has at least one character.
-/

namespace ResourcePki.JsonValue

/-! ### Texts -/

theorem hexValue?_digit : ∀ n < 16, Hex.value? (Hex.digit .lower n) = some n := by
  decide

/-- The number of a control character is spelled by the two digits of its octet. -/
theorem hex4?_control {c : Char} (h : c.toNat < 0x20) :
    hex4? '0' '0' (Hex.digit .lower (c.toUInt8.toNat / 16)) (Hex.digit .lower (c.toUInt8.toNat % 16))
      = some c.toNat := by
  have hoctet : c.toUInt8.toNat = c.toNat := Nat.mod_eq_of_lt (Nat.lt_of_lt_of_le h (by decide))
  rw [hoctet, hex4?, hexValue?_digit _ (by omega), hexValue?_digit _ (by omega)]
  show some (((0 * 16 + 0) * 16 + c.toNat / 16) * 16 + c.toNat % 16) = some c.toNat
  congr 1
  omega

/-- A character is read as it stands in a text. -/
theorem units?_escaped_append (c : Char) (cs : List Char) :
    units? (escaped c ++ cs) = (units? cs).map fun (us, rest) => (c.toNat :: us, rest) := by
  unfold escaped
  split
  case h_8 hquote hslash _ _ _ _ _ =>
    split
    · rename_i hcontrol
      rw [Hex.encode, List.flatMap_cons, List.flatMap_nil, List.append_nil]
      simp only [List.cons_append, List.nil_append, units?, hex4?_control hcontrol]
      cases units? cs <;> rfl
    · rename_i hplain
      rw [List.cons_append, List.nil_append, units?]
      · rw [if_neg fun h => h.elim hplain hslash]
        cases units? cs <;> rfl
      · exact hquote
      · exact fun _ _ _ _ _ h => absurd h hslash
      · exact fun _ _ h => absurd h hslash
  all_goals
    cases h : units? cs with
    | none => simp [units?, escape?, h]
    | some x => simp [units?, escape?, h]

theorem units?_flatMap_escaped (cs rest : List Char) :
    units? (cs.flatMap escaped ++ '"' :: rest) = some (cs.map Char.toNat, rest) := by
  induction cs with
  | nil => rfl
  | cons c cs ih =>
    rw [List.flatMap_cons, List.append_assoc, units?_escaped_append, ih]
    rfl

/-- No character is half of a surrogate pair. -/
theorem not_surrogate (c : Char) :
    isHighSurrogate c.toNat = false ∧ isLowSurrogate c.toNat = false := by
  have hvalid : c.toNat < 0xd800 ∨ 0xdfff < c.toNat ∧ c.toNat < 0x110000 := c.valid
  simp only [isHighSurrogate, isLowSurrogate, Bool.and_eq_false_iff, decide_eq_false_iff_not]
  omega

theorem ofUnits?_map_toNat : ∀ cs : List Char, ofUnits? (cs.map Char.toNat) = some cs
  | [] => rfl
  | [c] => by
    obtain ⟨hhigh, hlow⟩ := not_surrogate c
    simp [ofUnits?, hhigh, hlow]
  | c :: d :: cs => by
    obtain ⟨hhigh, hlow⟩ := not_surrogate c
    have hrest := ofUnits?_map_toNat (d :: cs)
    rw [List.map_cons] at hrest
    simp [ofUnits?, hhigh, hlow, hrest]

theorem quoted?_escaped (s : String) (rest : List Char) :
    quoted? (s.toList.flatMap escaped ++ '"' :: rest) = some (some s, rest) := by
  rw [quoted?, units?_flatMap_escaped]
  show some ((ofUnits? (s.toList.map Char.toNat)).map String.ofList, rest) = _
  rw [ofUnits?_map_toNat, Option.map_some, String.ofList_toList]

/-! ### Numbers -/

/-- What can stand behind a value that is written. -/
def Ends : List Char → Prop
  | [] => True
  | c :: _ => c = ',' ∨ c = ']' ∨ c = '}'

variable {rest : List Char}

theorem takeWhile_isDigit_of_ends (h : Ends rest) : rest.takeWhile Decimal.isDigit = [] := by
  cases rest with
  | nil => rfl
  | cons c rest => rcases h with rfl | rfl | rfl <;> rfl

theorem digits?_append {ds : List Char} (hne : ds ≠ []) (hds : ∀ c ∈ ds, Decimal.isDigit c = true)
    (h : Ends rest) : digits? (ds ++ rest) = some (ds, rest) := by
  have htake : (ds ++ rest).takeWhile Decimal.isDigit = ds := by
    rw [List.takeWhile_append_of_pos hds, takeWhile_isDigit_of_ends h, List.append_nil]
  rw [digits?, htake, if_neg hne, List.drop_left]

theorem exists_digits_eq_cons (n : Nat) :
    ∃ c cs, Decimal.digits n = c :: cs ∧ Decimal.isDigit c = true := by
  cases hcs : Decimal.digits n with
  | nil => exact absurd hcs Nat.toDigits_ne_nil
  | cons c cs => exact ⟨c, cs, rfl, Decimal.isDigit_of_mem_digits c (by rw [hcs]; simp)⟩

/-- The digits of a number do not begin with a zero that is not all of them. -/
theorem wholePart?_digits (n : Nat) (h : Ends rest) :
    wholePart? (Decimal.digits n ++ rest) = some (Decimal.digits n, rest) := by
  by_cases hn : n = 0
  · subst hn
    rfl
  · obtain ⟨d, cs, hcs, hpos, hlt⟩ := Decimal.exists_digits_eq_cons hn
    have hzero : ∀ d < 10, 0 < d → Nat.digitChar d ≠ '0' := by decide
    have hdigits := digits?_append (by simp [hcs]) (Decimal.isDigit_of_mem_digits (n := n)) h
    rw [← hdigits, hcs, wholePart?]
    exact fun _ heq => hzero d hlt hpos (List.cons.inj heq).1

theorem number?_digits (n : Nat) (h : Ends rest) :
    number? (Decimal.digits n ++ rest) = some (Decimal.digits n, rest) := by
  have hfraction : fractionPart? rest = some ([], rest) := by
    cases rest with
    | nil => rfl
    | cons c rest => rcases h with rfl | rfl | rfl <;> rfl
  have hexponent : exponentPart? rest = some ([], rest) := by
    cases rest with
    | nil => rfl
    | cons c rest => rcases h with rfl | rfl | rfl <;> rfl
  have hmagnitude : magnitude? (Decimal.digits n ++ rest) = some (Decimal.digits n, rest) := by
    rw [magnitude?, wholePart?_digits n h]
    simp [hfraction, hexponent]
  rw [← hmagnitude, number?]
  intro tail heq
  obtain ⟨c, cs, hcs, hc⟩ := exists_digits_eq_cons n
  rw [hcs] at heq
  rw [(List.cons.inj heq).1] at hc
  exact absurd hc (by decide)

/-! ### Values -/

/-- Values that can be written: numbers are natural, and every text is there. -/
inductive IsWritten : JsonValue → Prop
  | null : IsWritten .null
  | bool (b : Bool) : IsWritten (.bool b)
  | number (n : Nat) : IsWritten (ofNat n)
  | string (s : String) : IsWritten (ofText s)
  | array {items : List JsonValue} (h : ∀ v ∈ items, IsWritten v) : IsWritten (.array items)
  | object {members : List (String × JsonValue)} (h : ∀ m ∈ members, IsWritten m.2) :
    IsWritten (ofMembers members)

/-- An object with the given names can be written if all values can. -/
theorem IsWritten.zip {names : List String} {values : List JsonValue}
    (h : ∀ v ∈ values, IsWritten v) : IsWritten (ofMembers (names.zip values)) :=
  .object fun m hm => h m.2 (List.of_mem_zip hm).2

/-- A case with what it holds is an object with one member. -/
theorem IsWritten.case {name : String} {v : JsonValue} (h : IsWritten v) :
    IsWritten (ofMembers [(name, v)]) :=
  .object fun _ hm => List.mem_singleton.mp hm ▸ h

theorem IsWritten.pair {name other : String} {v w : JsonValue} (hv : IsWritten v)
    (hw : IsWritten w) : IsWritten (ofMembers [(name, v), (other, w)]) :=
  @IsWritten.zip [name, other] [v, w]
    (List.forall_mem_cons.mpr ⟨hv, List.forall_mem_singleton.mpr hw⟩)

theorem IsWritten.ofOption {α : Type} {write : α → JsonValue} (h : ∀ a, IsWritten (write a)) :
    ∀ o : Option α, IsWritten (ofOption write o)
  | none => .null
  | some a => h a

theorem IsWritten.array_map {α : Type} {write : α → JsonValue} (h : ∀ a, IsWritten (write a))
    (as : List α) : IsWritten (.array (as.map write)) :=
  .array fun v hv => by
    obtain ⟨a, -, rfl⟩ := List.mem_map.mp hv
    exact h a

theorem skipBlanks_cons {c : Char} (h : isBlank c = false) (cs : List Char) :
    skipBlanks (c :: cs) = c :: cs :=
  List.dropWhile_cons_of_neg (by simp [h])

theorem isBlank_of_isDigit {c : Char} (h : Decimal.isDigit c = true) : isBlank c = false := by
  cases hblank : isBlank c with
  | false => rfl
  | true =>
    simp only [isBlank, Bool.or_eq_true, beq_iff_eq] at hblank
    rcases hblank with ((rfl | rfl) | rfl) | rfl <;> exact absurd h (by decide)

/-- The text of a value begins with a character that is neither a blank nor the end of a list. -/
theorem IsWritten.exists_print_eq_cons {v : JsonValue} (h : IsWritten v) :
    ∃ c cs, v.print = c :: cs ∧ isBlank c = false ∧ c ≠ ']' ∧ c ≠ '}' := by
  cases h with
  | null => exact ⟨_, _, by rw [print], by decide⟩
  | bool b => cases b <;> exact ⟨_, _, by rw [print], by decide⟩
  | number n =>
    obtain ⟨c, cs, hcs, hc⟩ := exists_digits_eq_cons n
    refine ⟨c, cs, by rw [ofNat, print, hcs], isBlank_of_isDigit hc, ?_, ?_⟩
    · rintro rfl
      exact absurd hc (by decide)
    · rintro rfl
      exact absurd hc (by decide)
  | string s => exact ⟨_, _, by rw [ofText, print, quoted, List.cons_append], by decide⟩
  | array => exact ⟨_, _, by rw [print, List.cons_append], by decide⟩
  | object => exact ⟨_, _, by rw [ofMembers, print, List.cons_append], by decide⟩

theorem value?_number (fuel n : Nat) (h : Ends rest) :
    value? (fuel + 1) (Decimal.digits n ++ rest) = some (ofNat n, rest) := by
  have hnumber := number?_digits n h
  obtain ⟨c, cs, hcs, hc⟩ := exists_digits_eq_cons n
  rw [hcs, List.cons_append] at hnumber ⊢
  rw [value?, skipBlanks_cons (isBlank_of_isDigit hc)]
  split
  case h_7 =>
    rw [hnumber]
    show some (JsonValue.number (c :: cs), rest) = _
    rw [← hcs]
    rfl
  all_goals
    rename_i heq
    rw [(List.cons.inj heq).1] at hc
    exact absurd hc (by decide)

theorem value?_quoted (fuel : Nat) (s : String) :
    value? (fuel + 1) (quoted s ++ rest) = some (ofText s, rest) := by
  have hquoted := quoted?_escaped s rest
  rw [quoted, List.cons_append, List.cons_append, List.append_assoc]
  simp [value?, skipBlanks_cons, isBlank, hquoted, ofText]

/-- A value is read from its text if the bound is not less than the length. -/
def IsRead (v : JsonValue) : Prop :=
  ∀ {fuel : Nat} {rest : List Char}, v.print.length ≤ fuel → Ends rest →
    value? fuel (v.print ++ rest) = some (v, rest)

theorem printItems_cons_cons (v w : JsonValue) (items : List JsonValue) :
    printItems (v :: w :: items) = v.print ++ ',' :: printItems (w :: items) := by
  rw [printItems]
  simp

/-- Every item takes one step of the bound, and at least the comma or bracket behind it is gone. -/
theorem items?_printItems (rest : List Char) :
    ∀ {items : List JsonValue} {fuel : Nat}, items ≠ [] → (∀ v ∈ items, IsRead v) →
      (printItems items).length + 1 ≤ fuel →
      items? fuel (printItems items ++ ']' :: rest) = some (items, rest)
  | [v], fuel + 1, _, h, hfuel => by
    rw [printItems] at hfuel ⊢
    have hv : value? fuel (v.print ++ ']' :: rest) = some _ :=
      h v List.mem_cons_self (Nat.le_of_succ_le_succ hfuel) (Or.inr (Or.inl rfl))
    rw [items?, hv]
    rfl
  | v :: w :: items, fuel + 1, _, h, hfuel => by
    rw [printItems_cons_cons, List.length_append, List.length_cons] at hfuel
    rw [printItems_cons_cons, List.append_assoc, List.cons_append]
    have hv : value? fuel (v.print ++ ',' :: (printItems (w :: items) ++ ']' :: rest)) = some _ :=
      h v List.mem_cons_self (by omega) (Or.inl rfl)
    have hitems : items? fuel (printItems (w :: items) ++ ']' :: rest) = some _ :=
      items?_printItems rest (by simp) (fun v hv => h v (List.mem_cons_of_mem _ hv)) (by omega)
    rw [items?, hv]
    simp [skipBlanks_cons, isBlank, hitems]

/-- Members as they are kept. -/
def keyed (members : List (String × JsonValue)) : List (Option String × JsonValue) :=
  members.map fun (name, v) => (some name, v)

theorem printMembers_cons_cons (m n : String × JsonValue) (members : List (String × JsonValue)) :
    printMembers (keyed (m :: n :: members))
      = quoted m.1 ++ ':' :: (m.2.print ++ ',' :: printMembers (keyed (n :: members))) := by
  simp [keyed, printMembers]

theorem members?_printMembers (rest : List Char) :
    ∀ {members : List (String × JsonValue)} {fuel : Nat}, members ≠ [] →
      (∀ m ∈ members, IsRead m.2) → (printMembers (keyed members)).length + 1 ≤ fuel →
      members? fuel (printMembers (keyed members) ++ '}' :: rest) = some (keyed members, rest)
  | [m], fuel + 1, _, h, hfuel => by
    have hprint : printMembers (keyed [m]) = quoted m.1 ++ ':' :: m.2.print := by
      simp [keyed, printMembers]
    rw [hprint, List.length_append, List.length_cons] at hfuel
    rw [hprint, List.append_assoc, List.cons_append]
    have hv : value? fuel (m.2.print ++ '}' :: rest) = some _ :=
      h m List.mem_cons_self (by omega) (Or.inr (Or.inr rfl))
    have hkey := quoted?_escaped m.1 (':' :: (m.2.print ++ '}' :: rest))
    rw [quoted, List.cons_append, List.cons_append, List.append_assoc]
    simp [members?, skipBlanks_cons, isBlank, hkey, hv, keyed]
  | m :: n :: members, fuel + 1, _, h, hfuel => by
    rw [printMembers_cons_cons, List.length_append, List.length_cons, List.length_append,
      List.length_cons] at hfuel
    rw [printMembers_cons_cons, List.append_assoc, List.cons_append, List.append_assoc,
      List.cons_append]
    have hv : value? fuel
        (m.2.print ++ ',' :: (printMembers (keyed (n :: members)) ++ '}' :: rest)) = some _ :=
      h m List.mem_cons_self (by omega) (Or.inl rfl)
    have hmembers : members? fuel (printMembers (keyed (n :: members)) ++ '}' :: rest) = some _ :=
      members?_printMembers rest (by simp) (fun m hm => h m (List.mem_cons_of_mem _ hm)) (by omega)
    have hkey := quoted?_escaped m.1
      (':' :: (m.2.print ++ ',' :: (printMembers (keyed (n :: members)) ++ '}' :: rest)))
    rw [quoted, List.cons_append, List.cons_append, List.append_assoc]
    simp [members?, skipBlanks_cons, isBlank, hkey, hv, hmembers]
    rfl

/-- Behind a bracket, what is not its end is the first item. -/
theorem value?_bracket (fuel : Nat) {c : Char} (cs : List Char) (hblank : isBlank c = false)
    (hend : c ≠ ']') : value? (fuel + 1) ('[' :: c :: cs)
      = (items? fuel (c :: cs)).map fun (vs, rest) => (JsonValue.array vs, rest) := by
  have hopen : isBlank '[' = false := by decide
  simp [value?, skipBlanks_cons, hopen, hblank, hend]

/-- Behind a brace, what is not its end is the first member. -/
theorem value?_brace (fuel : Nat) {c : Char} (cs : List Char) (hblank : isBlank c = false)
    (hend : c ≠ '}') : value? (fuel + 1) ('{' :: c :: cs)
      = (members? fuel (c :: cs)).map fun (ms, rest) => (JsonValue.object ms, rest) := by
  have hopen : isBlank '{' = false := by decide
  simp [value?, skipBlanks_cons, hopen, hblank, hend]

theorem value?_array {items : List JsonValue} {fuel : Nat} (hw : ∀ v ∈ items, IsWritten v)
    (h : ∀ v ∈ items, IsRead v) (hfuel : (printItems items).length + 1 ≤ fuel) :
    value? (fuel + 1) ('[' :: (printItems items ++ ']' :: rest)) = some (.array items, rest) := by
  cases items with
  | nil => simp [value?, printItems, skipBlanks_cons, isBlank]
  | cons v items =>
    obtain ⟨c, cs, hcs, hblank, hend, -⟩ := (hw v List.mem_cons_self).exists_print_eq_cons
    obtain ⟨ds, hds⟩ : ∃ ds, printItems (v :: items) = c :: ds := by
      cases items with
      | nil => exact ⟨cs, by rw [printItems, hcs]⟩
      | cons w items => exact ⟨_, by rw [printItems_cons_cons, hcs, List.cons_append]⟩
    have hitems := items?_printItems rest (by simp) h hfuel
    rw [hds, List.cons_append] at hitems ⊢
    rw [value?_bracket fuel _ hblank hend, hitems]
    rfl

theorem value?_object {members : List (String × JsonValue)} {fuel : Nat}
    (h : ∀ m ∈ members, IsRead m.2) (hfuel : (printMembers (keyed members)).length + 1 ≤ fuel) :
    value? (fuel + 1) ('{' :: (printMembers (keyed members) ++ '}' :: rest))
      = some (ofMembers members, rest) := by
  cases members with
  | nil => simp [value?, keyed, printMembers, skipBlanks_cons, isBlank, ofMembers]
  | cons m members =>
    obtain ⟨ds, hds⟩ : ∃ ds, printMembers (keyed (m :: members)) = '"' :: ds := by
      cases members with
      | nil => exact ⟨_, by simp [keyed, printMembers, quoted]; rfl⟩
      | cons n members =>
        exact ⟨_, by rw [printMembers_cons_cons, quoted, List.cons_append, List.cons_append]⟩
    have hmembers := members?_printMembers rest (by simp) h hfuel
    rw [hds, List.cons_append] at hmembers ⊢
    rw [value?_brace fuel _ (by decide) (by decide), hmembers]
    rfl

/-- A bound of the recursion is used up only by values, of which each has a text. -/
theorem IsWritten.isRead_of_succ {v : JsonValue} (h : IsWritten v)
    (hread : ∀ {fuel : Nat} {rest : List Char}, v.print.length ≤ fuel + 1 → Ends rest →
      value? (fuel + 1) (v.print ++ rest) = some (v, rest)) : IsRead v := by
  intro fuel rest hfuel hends
  obtain ⟨c, cs, hcs, -⟩ := h.exists_print_eq_cons
  cases fuel with
  | zero =>
    rw [hcs, List.length_cons] at hfuel
    omega
  | succ fuel => exact hread hfuel hends

theorem IsWritten.isRead {v : JsonValue} (h : IsWritten v) : IsRead v := by
  induction h with
  | null =>
    refine IsWritten.null.isRead_of_succ fun _ _ => ?_
    simp [print, value?, skipBlanks_cons, isBlank, literal?]
  | bool b =>
    refine (IsWritten.bool b).isRead_of_succ fun _ _ => ?_
    cases b <;> simp [print, value?, skipBlanks_cons, isBlank, literal?]
  | number n =>
    refine (IsWritten.number n).isRead_of_succ fun _ hends => ?_
    rw [ofNat, print]
    exact value?_number _ n hends
  | string s =>
    refine (IsWritten.string s).isRead_of_succ fun _ _ => ?_
    rw [ofText, print]
    exact value?_quoted _ s
  | array h ih =>
    refine (IsWritten.array h).isRead_of_succ fun hfuel _ => ?_
    rw [print, List.length_append, List.length_cons, List.length_singleton] at hfuel
    rw [print, List.cons_append, List.cons_append, List.append_assoc]
    exact value?_array h ih (Nat.le_of_succ_le_succ hfuel)
  | object h ih =>
    refine (IsWritten.object h).isRead_of_succ fun hfuel _ => ?_
    rw [ofMembers, print, List.length_append, List.length_cons, List.length_singleton] at hfuel
    rw [ofMembers, print, List.cons_append, List.cons_append, List.append_assoc]
    exact value?_object ih (Nat.le_of_succ_le_succ hfuel)

/-- A value that can be written is read from its text. -/
theorem IsWritten.parse?_text {v : JsonValue} (h : IsWritten v) : parse? v.text = some v := by
  have hread : value? (2 * v.print.length + 2) (v.print ++ []) = some (v, []) :=
    h.isRead (by omega) trivial
  rw [List.append_nil] at hread
  rw [parse?, text, String.toList_ofList, read?, hread]
  rfl

end ResourcePki.JsonValue

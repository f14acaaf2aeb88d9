import Mathlib.Data.List.TakeWhile
import ResourcePki.Proofs.Decimal
import ResourcePki.Proofs.Time
import ResourcePki.Time.Rfc3339

/-!
A whole second in a year of four digits is read back from its text.

The text has every number in the most digits that reading takes for it, so each number is taken as a
whole whatever follows, and reading leaves off in front of the mark behind it. What the numbers show
is a date and a time of day that exist, and these make the moment again.
-/

namespace ResourcePki.Time.Rfc3339

open Decimal

/-! ### Numbers -/

theorem trim_cons {c : Char} (h : isBlank c = false) (cs : List Char) : trim (c :: cs) = c :: cs :=
  List.dropWhile_cons_of_neg (by simp [h])

theorem isBlank_of_isDigit {c : Char} (h : isDigit c = true) : isBlank c = false := by
  obtain ⟨hlow, hhigh⟩ := toNat_of_isDigit h
  simp only [isBlank, Bool.or_eq_false_iff, Bool.and_eq_false_iff, decide_eq_false_iff_not,
    beq_eq_false_iff_ne]
  omega

theorem valueOf_concat (cs : List Char) (c : Char) :
    valueOf (cs ++ [c]) = valueOf cs * 10 + (digit? c).getD 0 := by
  rw [valueOf, List.foldl_append]
  rfl

theorem valueOf_digits (n : Nat) : valueOf (digits n) = n := by
  induction n using Nat.strongRecOn with
  | ind n ih =>
    by_cases hn : n < 10
    · rw [digits_of_lt hn]
      show 0 * 10 + (digit? n.digitChar).getD 0 = n
      rw [digit?_digitChar n hn]
      exact Nat.zero_add n
    · rw [digits_of_le (Nat.not_lt.mp hn), valueOf_concat, ih (n / 10) (by omega),
        digit?_digitChar _ (Nat.mod_lt n (by decide))]
      exact Nat.div_add_mod' n 10

/-- Zeros in front make no difference. -/
theorem valueOf_padded (width n : Nat) : valueOf (padded width n) = n := by
  rw [padded]
  induction width - (digits n).length with
  | zero => exact valueOf_digits n
  | succ k ih => exact ih

/-- As many digits as may be read are read, whatever follows. -/
theorem number_append {most : Nat} {ds : List Char} (hne : ds ≠ []) (hlen : ds.length = most)
    (hds : ∀ c ∈ ds, isDigit c = true) (rest : List Char) :
    number most (ds ++ rest) = some (valueOf ds, rest) := by
  subst hlen
  have htrim : trim (ds ++ rest) = ds ++ rest := by
    obtain ⟨c, cs, rfl⟩ := List.exists_cons_of_ne_nil hne
    exact trim_cons (isBlank_of_isDigit (hds c List.mem_cons_self)) (cs ++ rest)
  have htake : ((ds ++ rest).take ds.length).takeWhile isDigit = ds := by
    rw [List.take_left]
    exact List.takeWhile_eq_self_iff.mpr hds
  unfold number
  dsimp only
  rw [htrim, htake, if_neg hne, List.drop_left]

theorem number_padded {width n : Nat} (hwidth : 0 < width) (h : n < 10 ^ width)
    (rest : List Char) : number width (padded width n ++ rest) = some (n, rest) := by
  have hlen : (padded width n).length = width := length_padded hwidth h
  have hne : padded width n ≠ [] := List.ne_nil_of_length_pos (by omega)
  rw [number_append hne hlen isDigit_of_mem_padded, valueOf_padded]

/-- A year that begins with a digit has no sign. -/
theorem year_of_isDigit {c : Char} (h : isDigit c = true) (cs : List Char) :
    year (c :: cs) = (number 4 (c :: cs)).map fun (n, rest) => ((n : Int), rest) := by
  unfold year
  rw [trim_cons (isBlank_of_isDigit h)]
  split
  · rename_i heq
    rw [(List.cons.inj heq).1] at h
    exact absurd h (by decide)
  · rename_i heq
    rw [(List.cons.inj heq).1] at h
    exact absurd h (by decide)
  · rfl

theorem year_yearText {y : Int} (hnonneg : 0 ≤ y) (hle : y ≤ 9999) (rest : List Char) :
    year (yearText y ++ rest) = some (y, rest) := by
  have hread : number 4 (padded 4 y.toNat ++ rest) = some (y.toNat, rest) :=
    number_padded (by decide) (by omega) rest
  have hlen : (padded 4 y.toNat).length = 4 := length_padded (by decide) (by omega)
  have hds : ∀ c ∈ padded 4 y.toNat, isDigit c = true := isDigit_of_mem_padded
  rw [yearText, if_pos ⟨hnonneg, hle⟩]
  cases hcs : padded 4 y.toNat with
  | nil => simp [hcs] at hlen
  | cons c cs =>
    rw [hcs] at hread hds
    rw [List.cons_append, year_of_isDigit (hds c List.mem_cons_self), ← List.cons_append, hread]
    simp [Int.toNat_of_nonneg hnonneg]

/-! ### Moments -/

theorem mark_cons {c : Char} (h : isBlank c = false) (rest : List Char) :
    mark c (c :: rest) = some rest := by
  rw [mark, trim_cons h]
  exact if_pos rfl

/-- The text of a whole second: numbers with marks between them. -/
theorem toList_write {t : Time} (h : t.nanos = 0) :
    (write t).toList = yearText t.clock.year ++ ('-' :: (padded 2 t.clock.month ++
      ('-' :: (padded 2 t.clock.day ++ ('T' :: (padded 2 t.clock.hour ++
      (':' :: (padded 2 t.clock.minute ++ (':' :: (padded 2 t.clock.second ++ ['Z'])))))))))) := by
  rw [write, String.toList_ofList, h]
  simp [secondsText, fractionText]

/-- A moment that the text form shows in full is read back from it. -/
theorem read?_write {t : Time} (h : t.IsPlain) : read? (write t) = some t := by
  obtain ⟨hvalid, hseconds⟩ := isValid_clock h.whole
  obtain ⟨hdate, hhour, hminute, hsecond⟩ := Clock.isValid_iff.mp hvalid
  obtain ⟨-, hmonth, -, -⟩ := Calendar.Date.isValid_iff.mp hdate
  have hday := Calendar.Date.day_le_of_isValid hdate
  dsimp only at hmonth hday
  have hmade : ofSecondsAndNanos? t.seconds 0 = some t := h.whole ▸ ofSecondsAndNanos?_seconds t
  have hdash := mark_cons (c := '-') (by decide)
  have hcolon := mark_cons (c := ':') (by decide)
  rw [read?, toList_write h.whole]
  refine Option.bind_eq_some_iff.mpr ⟨_, year_yearText h.year_nonneg h.year_le _, ?_⟩
  refine Option.bind_eq_some_iff.mpr ⟨_, hdash _, ?_⟩
  refine Option.bind_eq_some_iff.mpr ⟨_, number_padded (by decide) (by omega) _, ?_⟩
  refine Option.bind_eq_some_iff.mpr ⟨_, hdash _, ?_⟩
  refine Option.bind_eq_some_iff.mpr ⟨_, number_padded (by decide) (by omega) _, ?_⟩
  refine Option.bind_eq_some_iff.mpr ⟨_, rfl, ?_⟩
  refine Option.bind_eq_some_iff.mpr ⟨_, number_padded (by decide) (by omega) _, ?_⟩
  refine Option.bind_eq_some_iff.mpr ⟨_, hcolon _, ?_⟩
  refine Option.bind_eq_some_iff.mpr ⟨_, number_padded (by decide) (by omega) _, ?_⟩
  refine Option.bind_eq_some_iff.mpr ⟨_, hcolon _, ?_⟩
  refine Option.bind_eq_some_iff.mpr ⟨_, number_padded (by decide) (by omega) _, ?_⟩
  refine Option.bind_eq_some_iff.mpr ⟨(0, ['Z']), rfl, ?_⟩
  refine Option.bind_eq_some_iff.mpr ⟨(0, []), by decide, ?_⟩
  dsimp only
  rw [Nat.min_eq_left (by omega), if_pos ⟨rfl, hvalid, by omega, by decide⟩, hseconds,
    if_neg (by omega), Int.sub_zero]
  exact Option.bind_eq_some_iff.mpr ⟨t, hmade, hmade⟩

end ResourcePki.Time.Rfc3339

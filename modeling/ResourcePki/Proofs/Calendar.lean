import Mathlib.Data.Nat.Find
import ResourcePki.Calendar

/-!
The calendar in both directions.

Years follow each other without gaps, each with one day more if it is a leap year, and so do the
months of a year. A day therefore falls in exactly one year and, within it, in exactly one month,
which is where the calendar places it. Numbering the days and dating them undo each other.
-/

namespace ResourcePki.Calendar

/-! ### Years -/

/-- A year is as long as its months together. -/
theorem daysBeforeYear_succ (year : Int) :
    daysBeforeYear (year + 1) = daysBeforeYear year + daysBeforeMonth (isLeap year) 13 := by
  have hlength : (daysBeforeMonth (isLeap year) 13 : Int) = if isLeap year then 366 else 365 := by
    cases isLeap year <;> rfl
  rw [hlength]
  simp only [daysBeforeYear, isLeap, Bool.and_eq_true, Bool.or_eq_true, decide_eq_true_eq]
  split <;> omega

theorem daysBeforeYear_mono {y z : Int} (h : y ≤ z) : daysBeforeYear y ≤ daysBeforeYear z := by
  simp only [daysBeforeYear]
  omega

/-- Years have 400 days for every 146097/400 on average and never lag behind by two days, so the
    guess is off by at most one. -/
theorem yearOfDay_spec (n : Int) :
    daysBeforeYear (yearOfDay n) ≤ n ∧ n < daysBeforeYear (yearOfDay n + 1) := by
  have hbelow : daysBeforeYear (n * 400 / 146097 + 1 - 1) ≤ n := by
    simp only [daysBeforeYear]
    omega
  have habove : n < daysBeforeYear (n * 400 / 146097 + 1 + 1 + 1) := by
    simp only [daysBeforeYear]
    omega
  unfold yearOfDay
  dsimp only
  split
  · rename_i hlow
    exact ⟨hbelow, by rwa [Int.sub_add_cancel]⟩
  · rename_i hlow
    split
    · rename_i hhigh
      exact ⟨hhigh, habove⟩
    · rename_i hhigh
      exact ⟨Int.not_lt.mp hlow, Int.not_le.mp hhigh⟩

/-- There is no other year for a day. -/
theorem yearOfDay_eq {n year : Int} (hstart : daysBeforeYear year ≤ n)
    (hend : n < daysBeforeYear (year + 1)) : yearOfDay n = year := by
  obtain ⟨hstart', hend'⟩ := yearOfDay_spec n
  rcases Int.lt_trichotomy (yearOfDay n) year with hlt | heq | hgt
  · have hmono := daysBeforeYear_mono (Int.add_one_le_of_lt hlt)
    omega
  · exact heq
  · have hmono := daysBeforeYear_mono (Int.add_one_le_of_lt hgt)
    omega

/-! ### Months -/

theorem daysBeforeMonth_mono : ∀ leap, ∀ m < 14, ∀ k ≤ m,
    daysBeforeMonth leap k ≤ daysBeforeMonth leap m := by
  decide +kernel

/-- No month has more than 31 days. -/
theorem daysBeforeMonth_succ_le : ∀ leap, ∀ m < 13,
    daysBeforeMonth leap (m + 1) ≤ daysBeforeMonth leap m + 31 := by
  decide

/-- The months that begin by a day are those up to the month that the day falls in. -/
theorem monthOfDay_eq {leap : Bool} {n month : Nat} (hmonth : month ≤ 12)
    (hstart : daysBeforeMonth leap month ≤ n) (hend : n < daysBeforeMonth leap (month + 1)) :
    monthOfDay leap n = month := by
  have hbegun : ∀ m ∈ List.range 12,
      decide (daysBeforeMonth leap (m + 1) ≤ n) = decide (m < month) := by
    intro m hm
    rw [List.mem_range] at hm
    rcases Nat.lt_or_ge m month with hlt | hge
    · have hmono := daysBeforeMonth_mono leap month (by omega) (m + 1) hlt
      rw [decide_eq_true (Nat.le_trans hmono hstart), decide_eq_true hlt]
    · have hmono := daysBeforeMonth_mono leap (m + 1) (by omega) (month + 1) (by omega)
      rw [decide_eq_false (by omega), decide_eq_false (by omega)]
  have hcount : ∀ m ≤ 12, ((List.range 12).filter fun k => decide (k < m)).length = m := by
    decide
  rw [monthOfDay, List.filter_congr hbegun]
  exact hcount month hmonth

/-- A day of a year falls in one of its months. -/
theorem monthOfDay_spec {leap : Bool} {n : Nat} (h : n < daysBeforeMonth leap 13) :
    1 ≤ monthOfDay leap n ∧ monthOfDay leap n ≤ 12 ∧
      daysBeforeMonth leap (monthOfDay leap n) ≤ n ∧
      n < daysBeforeMonth leap (monthOfDay leap n + 1) := by
  have hfirst : daysBeforeMonth leap 1 ≤ n := by
    cases leap <;> exact Nat.zero_le n
  let Begun (m : Nat) : Prop := daysBeforeMonth leap m ≤ n
  obtain ⟨month, hlast⟩ : ∃ m, Nat.findGreatest Begun 12 = m := ⟨_, rfl⟩
  obtain ⟨hmonth, hbegun, hgreatest⟩ := Nat.findGreatest_eq_iff.mp hlast
  have hpos : 1 ≤ month := hlast ▸ Nat.le_findGreatest (by decide) hfirst
  have hstart : daysBeforeMonth leap month ≤ n := hbegun (Nat.ne_of_gt hpos)
  have hend : n < daysBeforeMonth leap (month + 1) := by
    rcases Nat.lt_or_eq_of_le hmonth with hlt | rfl
    · exact Nat.not_le.mp (hgreatest (Nat.lt_succ_self month) hlt)
    · exact h
  rw [monthOfDay_eq hmonth hstart hend]
  exact ⟨hpos, hmonth, hstart, hend⟩

/-! ### Dates -/

namespace Date

theorem isValid_iff {d : Date} : d.isValid = true ↔
    1 ≤ d.month ∧ d.month ≤ 12 ∧ 1 ≤ d.day ∧
      daysBeforeMonth (isLeap d.year) d.month + d.day
        ≤ daysBeforeMonth (isLeap d.year) (d.month + 1) := by
  simp only [isValid, Bool.and_eq_true, decide_eq_true_eq]
  unfold daysInMonth
  omega

theorem day_le_of_isValid {d : Date} (h : d.isValid = true) : d.day ≤ 31 := by
  obtain ⟨-, hmonth, -, hlast⟩ := isValid_iff.mp h
  have hlength := daysBeforeMonth_succ_le (isLeap d.year) d.month (by omega)
  omega

/-- Every number is that of a day. -/
theorem ofDay_spec (n : Int) : (ofDay n).isValid = true ∧ (ofDay n).toDay = n := by
  obtain ⟨hstart, hend⟩ := yearOfDay_spec n
  rw [daysBeforeYear_succ] at hend
  have hyear : (n - daysBeforeYear (yearOfDay n)).toNat
      < daysBeforeMonth (isLeap (yearOfDay n)) 13 := by
    omega
  obtain ⟨hpos, hmonth, hstart', hend'⟩ := monthOfDay_spec hyear
  rw [isValid_iff]
  unfold toDay ofDay
  dsimp only
  omega

/-- No two days have one number. -/
theorem ofDay_toDay {d : Date} (h : d.isValid = true) : ofDay d.toDay = d := by
  obtain ⟨hpos, hmonth, hday, hlast⟩ := isValid_iff.mp h
  have hyear : yearOfDay d.toDay = d.year := by
    have hmono := daysBeforeMonth_mono (isLeap d.year) 13 (by decide) (d.month + 1) (by omega)
    refine yearOfDay_eq ?_ ?_
    · unfold toDay
      omega
    · rw [daysBeforeYear_succ]
      unfold toDay
      omega
  have hdayOfYear : (d.toDay - daysBeforeYear d.year).toNat
      = daysBeforeMonth (isLeap d.year) d.month + d.day - 1 := by
    unfold toDay
    omega
  have hmonthOfDay : monthOfDay (isLeap d.year)
      (daysBeforeMonth (isLeap d.year) d.month + d.day - 1) = d.month :=
    monthOfDay_eq hmonth (by omega) (by omega)
  have hdayOfMonth : daysBeforeMonth (isLeap d.year) d.month + d.day - 1
      - daysBeforeMonth (isLeap d.year) d.month + 1 = d.day := by
    omega
  rw [ofDay, hyear, hdayOfYear, hmonthOfDay, hdayOfMonth]

end Date

end ResourcePki.Calendar

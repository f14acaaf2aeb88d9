import ResourcePki.Proofs.Calendar
import ResourcePki.Time

/-!
The order of moments, and moments in whole seconds.

Moments are ordered by their seconds and, within a second, by its parts. Any two moments can be
compared, so two of which none comes before the other are the same. What is made from a date and a
time of day has no parts of a second, and shows the same date and time of day again; every whole
second is made in this way.
-/

namespace ResourcePki

/-! ### Dates and times of day -/

namespace Clock

theorem isValid_iff {c : Clock} : c.isValid = true ↔
    (Calendar.Date.mk c.year c.month c.day).isValid = true ∧ c.hour < 24 ∧ c.minute < 60 ∧
      c.second < 60 := by
  simp only [isValid, Bool.and_eq_true, decide_eq_true_eq, and_assoc]

/-- Every number of seconds is that of a date and a time of day. -/
theorem ofSeconds_spec (s : Int) : (ofSeconds s).isValid = true ∧ (ofSeconds s).toSeconds = s := by
  obtain ⟨hvalid, hday⟩ := Calendar.Date.ofDay_spec (s / 86400 + Calendar.epochDay)
  rw [isValid_iff]
  unfold toSeconds ofSeconds
  dsimp only
  refine ⟨⟨hvalid, ?_⟩, ?_⟩
  · omega
  · rw [hday]
    omega

/-- No two dates and times of day have one number of seconds. -/
theorem ofSeconds_toSeconds {c : Clock} (h : c.isValid = true) : ofSeconds c.toSeconds = c := by
  obtain ⟨hvalid, hhour, hminute, hsecond⟩ := isValid_iff.mp h
  have hday : c.toSeconds / 86400 + Calendar.epochDay
      = (Calendar.Date.mk c.year c.month c.day).toDay := by
    unfold toSeconds
    omega
  have hrest : (c.toSeconds % 86400).toNat = c.hour * 3600 + c.minute * 60 + c.second := by
    unfold toSeconds
    omega
  have hhour' : (c.hour * 3600 + c.minute * 60 + c.second) / 3600 = c.hour := by omega
  have hminute' : (c.hour * 3600 + c.minute * 60 + c.second) / 60 % 60 = c.minute := by omega
  have hsecond' : (c.hour * 3600 + c.minute * 60 + c.second) % 60 = c.second := by omega
  rw [ofSeconds, hday, Calendar.Date.ofDay_toDay hvalid, hrest, hhour', hminute', hsecond']

end Clock

namespace Time

/-! ### Whole seconds -/

theorem nanos_of_ofSeconds? {s : Int} {t : Time} (h : ofSeconds? s = some t) : t.nanos = 0 := by
  unfold ofSeconds? ofSecondsAndNanos? at h
  split at h
  · exact Option.some.inj h ▸ rfl
  · simp at h

theorem nanos_of_ofClock? {c : Clock} {t : Time} (h : ofClock? c = some t) : t.nanos = 0 := by
  unfold ofClock? at h
  split at h
  · exact nanos_of_ofSeconds? h
  · simp at h

theorem clock_of_whole {t : Time} (h : t.nanos = 0) : t.clock = Clock.ofSeconds t.seconds := by
  unfold clock
  rw [h]
  rfl

/-- A moment shows the date and the time of day that it has been made from. -/
theorem clock_of_ofClock? {c : Clock} {t : Time} (h : ofClock? c = some t) : t.clock = c := by
  rw [clock_of_whole (nanos_of_ofClock? h)]
  unfold ofClock? at h
  split at h
  · rename_i hvalid
    unfold ofSeconds? ofSecondsAndNanos? at h
    split at h
    · rw [← Option.some.inj h]
      exact Clock.ofSeconds_toSeconds hvalid
    · simp at h
  · simp at h

/-- The date and the time of day that a whole second shows exist and make it again. -/
theorem isValid_clock {t : Time} (h : t.nanos = 0) :
    t.clock.isValid = true ∧ t.clock.toSeconds = t.seconds := by
  rw [clock_of_whole h]
  exact Clock.ofSeconds_spec t.seconds

theorem ofSecondsAndNanos?_seconds (t : Time) : ofSecondsAndNanos? t.seconds t.nanos = some t :=
  dif_pos t.inRange

/-- What the usual forms of a moment can show: a whole second in a year of four digits. -/
structure IsPlain (t : Time) : Prop where
  whole : t.nanos = 0
  year_nonneg : 0 ≤ t.clock.year
  year_le : t.clock.year ≤ 9999

theorem isPlain_of_ofClock? {c : Clock} {t : Time} (h : ofClock? c = some t) (hnonneg : 0 ≤ c.year)
    (hle : c.year ≤ 9999) : t.IsPlain := by
  obtain rfl := clock_of_ofClock? h
  exact ⟨nanos_of_ofClock? h, hnonneg, hle⟩

/-! ### Order -/

instance : LE Time where
  le a b := a.seconds < b.seconds ∨ a.seconds = b.seconds ∧ a.nanos ≤ b.nanos

theorem not_before_iff {a b : Time} : b.before a = false ↔ a ≤ b := by
  rw [← Bool.not_eq_true]
  show _ ↔ a.seconds < b.seconds ∨ a.seconds = b.seconds ∧ a.nanos ≤ b.nanos
  simp only [before, Bool.or_eq_true, Bool.and_eq_true, decide_eq_true_eq, beq_iff_eq]
  omega

/-- A time that is not after another one is before all that the other one is before. -/
theorem before_of_not_before {a b c : Time} (hba : b.before a = false) (hbc : b.before c = true) :
    a.before c = true := by
  rw [← Bool.not_eq_true] at hba
  simp only [before, Bool.or_eq_true, Bool.and_eq_true, decide_eq_true_eq, beq_iff_eq] at *
  omega

theorem not_before_of_before {a b : Time} (h : a.before b = true) : b.before a = false := by
  rw [← Bool.not_eq_true]
  simp only [before, Bool.or_eq_true, Bool.and_eq_true, decide_eq_true_eq, beq_iff_eq] at *
  omega

theorem not_before_self (a : Time) : a.before a = false := by
  simp [before]

/-- Two times of which none is before the other are the same. -/
theorem eq_of_not_before {a b : Time} (hab : a.before b = false) (hba : b.before a = false) :
    a = b := by
  rw [← Bool.not_eq_true] at hab hba
  obtain ⟨s, n, _⟩ := a
  obtain ⟨t, m, _⟩ := b
  simp only [before, Bool.or_eq_true, Bool.and_eq_true, decide_eq_true_eq, beq_iff_eq] at hab hba
  obtain rfl : s = t := by omega
  obtain rfl : n = m := by omega
  rfl

end Time

end ResourcePki

import ResourcePki.Proofs.Certificate.Decoded
import ResourcePki.Proofs.Der.Written
import ResourcePki.Proofs.Time.Rfc3339

/-!
A whole second in a year of four digits is read back from its encoding, and no other one is.

Every number that is written has the digits that reading takes for it, which shows the moment again.
For a year before 0 the sign stands where the first digit is due. For a year after 9999 there is a
digit more than announced, so that a digit stands where the letter at the end is due. All that is
read is a whole second in a year of four digits.
-/

namespace ResourcePki.Time

open Decimal Der

/-! ### Numbers -/

theorem toNat_toUInt8_of_isDigit {c : Char} (h : isDigit c = true) :
    c.toUInt8.toNat = c.toNat ∧ (digit? c).getD 0 = c.toNat - 0x30 := by
  obtain ⟨hlow, hhigh⟩ := toNat_of_isDigit h
  constructor
  · show c.toNat % 256 = c.toNat
    omega
  · have hrange : '0' ≤ c ∧ c ≤ '9' := ⟨hlow, hhigh⟩
    rw [digit?, if_pos hrange]
    rfl

theorem letter_notMem_of_isDigit {ds : List Char} (h : ∀ c ∈ ds, isDigit c = true) :
    (0x5a : UInt8) ∉ ds.map Char.toUInt8 := by
  intro hletter
  obtain ⟨c, hc, hcode⟩ := List.mem_map.mp hletter
  have hbyte := (toNat_toUInt8_of_isDigit (h c hc)).1
  have hhigh := (toNat_of_isDigit (h c hc)).2
  rw [hcode] at hbyte
  have hvalue : (0x5a : UInt8).toNat = 0x5a := rfl
  omega

/-- A number of the right count of digits is read, whatever follows. -/
theorem takes_number : ∀ (ds : List Char) (start : Nat), (∀ c ∈ ds, isDigit c = true) →
    Takes (number ds.length start) (ds.map Char.toUInt8)
      (ds.foldl (fun n c => n * 10 + (digit? c).getD 0) start)
  | [], _, _ => Takes.pure
  | c :: ds, start, h => by
    have hc := h c List.mem_cons_self
    obtain ⟨hbyte, hvalue⟩ := toNat_toUInt8_of_isDigit hc
    obtain ⟨hlow, hhigh⟩ := toNat_of_isDigit hc
    have hrange : 0x30 ≤ c.toUInt8 ∧ c.toUInt8 ≤ 0x39 := by
      rw [UInt8.le_iff_toNat_le, UInt8.le_iff_toNat_le, hbyte]
      exact ⟨hlow, hhigh⟩
    have hrest := takes_number ds (start * 10 + (c.toUInt8.toNat - 0x30)) fun d hd =>
      h d (List.mem_cons_of_mem c hd)
    intro after missing
    refine run_bind_eq_ok.mpr ⟨c.toUInt8, ⟨ds.map Char.toUInt8 ++ after, missing⟩, rfl, ?_⟩
    rw [if_pos hrange, List.foldl_cons, hvalue, ← hbyte]
    exact hrest after missing

theorem takes_number_padded {width n : Nat} (hwidth : 0 < width) (h : n < 10 ^ width) :
    Takes (number width 0) ((padded width n).map Char.toUInt8) n := by
  have htakes := takes_number (padded width n) 0 isDigit_of_mem_padded
  have hvalue : (padded width n).foldl (fun n c => n * 10 + (digit? c).getD 0) 0 = n :=
    Rfc3339.valueOf_padded width n
  rwa [length_padded hwidth h, hvalue] at htakes

/-- A number that has been read had all of its digits. -/
theorem of_number : ∀ {count start n : Nat} {s t : Input}, number count start s = .ok (n, t) →
    count ≤ s.octets.length ∧ t.octets = s.octets.drop count ∧
      ∀ b ∈ s.octets.take count, 0x30 ≤ b
  | 0, start, n, s, t, h => by
    rw [number, run_pure_eq_ok, Prod.mk.injEq] at h
    obtain ⟨rfl, rfl⟩ := h
    exact ⟨Nat.zero_le _, rfl, by simp⟩
  | count + 1, start, n, s, t, h => by
    obtain ⟨b, u, hb, hrun⟩ := run_bind_eq_ok.mp h
    obtain rfl := octet_eq_ok.mp hb
    split at hrun
    · rename_i hdigit
      obtain ⟨hlength, hrest, hdigits⟩ := of_number hrun
      refine ⟨Nat.succ_le_succ hlength, hrest, fun d hd => ?_⟩
      rcases List.mem_cons.mp hd with rfl | hd
      · exact hdigit.1
      · exact hdigits d hd
    · exact absurd hrun run_throw_ne_ok

/-! ### What is written -/

/-- The tag that a moment is written with. -/
def tag (t : Time) : Tag :=
  if isShortYear t.clock.year then Tag.utcTime else Tag.generalizedTime

/-- The characters that the year of a moment is written with. -/
def writtenYear (t : Time) : List Char :=
  if isShortYear t.clock.year then padded 2 (t.clock.year % 100).toNat else longYear t.clock.year

variable {t : Time}

theorem opens_tag (t : Time) : Opens t.tag t.tag false := by
  unfold tag
  split <;> exact ⟨by decide, rfl, rfl, by decide⟩

theorem isShortYear_iff {year : Int} : isShortYear year = true ↔ 1950 ≤ year ∧ year ≤ 2049 := by
  simp [isShortYear]

theorem content_eq (t : Time) : t.content =
    (t.writtenYear ++ digitsBelowYear t.clock).map Char.toUInt8 ++ [0x5a] :=
  List.map_append

/-- All numbers below the year have two digits. -/
theorem below_lt {c : Clock} (h : c.isValid = true) :
    ∀ n ∈ [c.month, c.day, c.hour, c.minute, c.second], n < 10 ^ 2 := by
  obtain ⟨hdate, hhour, hminute, hsecond⟩ := Clock.isValid_iff.mp h
  obtain ⟨-, hmonth, -, -⟩ := Calendar.Date.isValid_iff.mp hdate
  have hday := Calendar.Date.day_le_of_isValid hdate
  dsimp only at hmonth hday
  simp only [List.forall_mem_cons, List.not_mem_nil, false_imp_iff, implies_true, and_true]
  omega

theorem length_digitsBelowYear {c : Clock} (h : c.isValid = true) :
    (digitsBelowYear c).length = 10 := by
  have hlength : ∀ n ∈ [c.month, c.day, c.hour, c.minute, c.second], (padded 2 n).length = 2 :=
    fun n hn => length_padded (by decide) (below_lt h n hn)
  rw [digitsBelowYear, List.length_flatMap, List.map_congr_left hlength]
  rfl

theorem isDigit_of_mem_digitsBelowYear {c : Clock} : ∀ d ∈ digitsBelowYear c, isDigit d = true := by
  intro d hd
  obtain ⟨n, -, hn⟩ := List.mem_flatMap.mp hd
  exact isDigit_of_mem_padded d hn

theorem length_content (h : t.nanos = 0) : t.content.length = t.writtenYear.length + 11 := by
  rw [content_eq, List.length_append, List.length_map, List.length_append,
    length_digitsBelowYear (isValid_clock h).1, List.length_singleton]

theorem le_length_longYear (year : Int) : 4 ≤ (longYear year).length := by
  unfold longYear
  split
  · exact Nat.succ_le_succ (le_length_padded 3 _)
  · exact le_length_padded 4 _

theorem announced_lt (t : Time) : t.announced < lengthBound := by
  unfold announced
  split <;> decide

/-- What is announced is written, and possibly more. -/
theorem announced_le_length_content (h : t.nanos = 0) : t.announced ≤ t.content.length := by
  rw [length_content h, announced, writtenYear]
  split
  · have hlength := le_length_padded 2 (t.clock.year % 100).toNat
    omega
  · have hlength := le_length_longYear t.clock.year
    omega

/-- A year of four digits is written in as many characters as announced. -/
theorem IsPlain.length_content (h : t.IsPlain) : t.content.length = t.announced := by
  have hnonneg := h.year_nonneg
  have hle := h.year_le
  rw [Time.length_content h.whole, announced, writtenYear]
  split
  · have hlength : (padded 2 (t.clock.year % 100).toNat).length = 2 :=
      length_padded (by decide) (by omega)
    omega
  · have hlength : (padded 4 t.clock.year.toNat).length = 4 :=
      length_padded (by decide) (by omega)
    rw [longYear, if_neg (by omega), hlength]

/-- The value that is read is what has been announced; what has been written beyond that stands
    behind it. -/
theorem encode_eq (h : t.nanos = 0) :
    t.encode = value t.tag (t.content.take t.announced) ++ t.content.drop t.announced := by
  have hlength : (t.content.take t.announced).length = t.announced :=
    List.length_take_of_le (announced_le_length_content h)
  rw [value, Der.announced, hlength, List.cons_append, List.append_assoc, List.take_append_drop]
  rfl

/-! ### Years of four digits -/

theorem ofClock?_clock (h : t.nanos = 0) : ofClock? t.clock = some t := by
  obtain ⟨hvalid, hseconds⟩ := isValid_clock h
  rw [ofClock?, if_pos hvalid, hseconds, ofSeconds?]
  exact h ▸ ofSecondsAndNanos?_seconds t

theorem takes_readYear (h : t.IsPlain) :
    Takes (readYear t.tag) (t.writtenYear.map Char.toUInt8) t.clock.year.toNat := by
  have hnonneg := h.year_nonneg
  have hle := h.year_le
  unfold tag writtenYear
  split
  · rename_i hshort
    obtain ⟨hlow, hhigh⟩ := isShortYear_iff.mp hshort
    -- the two digits stand for the one year from 1950 to 2049 that ends in them
    have hwindow : (if 50 ≤ (t.clock.year % 100).toNat then 1900 + (t.clock.year % 100).toNat
        else 2000 + (t.clock.year % 100).toNat) = t.clock.year.toNat := by
      split <;> omega
    have htakes : Takes (number 2 0) ((padded 2 (t.clock.year % 100).toNat).map Char.toUInt8)
        (t.clock.year % 100).toNat :=
      takes_number_padded (by decide) (by omega)
    refine htakes.bind_nil ?_
    rw [hwindow]
    exact Takes.pure
  · rw [longYear, if_neg (by omega)]
    exact takes_number_padded (by decide) (by omega)

theorem takesAll_readContent (h : t.IsPlain) : TakesAll (readContent t.tag) t.content t := by
  have hvalid := (isValid_clock h.whole).1
  have hnumber : ∀ n ∈ [t.clock.month, t.clock.day, t.clock.hour, t.clock.minute, t.clock.second],
      Takes (number 2 0) ((padded 2 n).map Char.toUInt8) n :=
    fun n hn => takes_number_padded (by decide) (below_lt hvalid n hn)
  simp only [List.forall_mem_cons] at hnumber
  obtain ⟨hmonth, hday, hhour, hminute, hsecond, -⟩ := hnumber
  have hmade : ofClock? ⟨t.clock.year.toNat, t.clock.month, t.clock.day, t.clock.hour,
      t.clock.minute, t.clock.second⟩ = some t := by
    rw [Int.toNat_of_nonneg h.year_nonneg]
    exact ofClock?_clock h.whole
  have hcontent : t.content = t.writtenYear.map Char.toUInt8 ++
      ((padded 2 t.clock.month).map Char.toUInt8 ++ ((padded 2 t.clock.day).map Char.toUInt8 ++
      ((padded 2 t.clock.hour).map Char.toUInt8 ++ ((padded 2 t.clock.minute).map Char.toUInt8 ++
      ((padded 2 t.clock.second).map Char.toUInt8 ++ [0x5a]))))) := by
    simp [content_eq, digitsBelowYear]
  rw [hcontent]
  refine ((takes_readYear h).bind (hmonth.bind (hday.bind (hhour.bind (hminute.bind (hsecond.bind
    ((takes_octet 0x5a).bind_nil ?_))))))).all
  rw [if_neg (by decide)]
  dsimp only
  rw [hmade]
  exact Takes.pure

/-- A moment in a year of four digits is read back, wherever its encoding stands. -/
theorem takes_read (h : t.IsPlain) : Takes read t.encode t := by
  have hencode : t.encode = value t.tag t.content := by
    rw [value, h.length_content]
    rfl
  have hbound : t.content.length < lengthBound := h.length_content ▸ t.announced_lt
  rw [hencode]
  refine (takes_element (opens_tag t) hbound).bind_nil ?_
  refine Takes.lift ?_
  have hread : readContent t.tag ⟨t.content, some 0⟩ = .ok (t, ⟨[], some 0⟩) :=
    takesAll_readContent h
  simp only [Element.ofContent, Input.readAll, hread]
  rfl

/-! ### Other years -/

/-- Fifteen octets that are read as a moment begin with a digit and end in a letter. -/
theorem of_readContent {s u : Input} (h : readContent Tag.generalizedTime s = .ok (t, u)) :
    (∃ b rest, s.octets = b :: rest ∧ 0x30 ≤ b) ∧ ∃ rest, s.octets.drop 14 = 0x5a :: rest := by
  obtain ⟨year, s₁, hyear, h⟩ := run_bind_eq_ok.mp h
  obtain ⟨month, s₂, hmonth, h⟩ := run_bind_eq_ok.mp h
  obtain ⟨day, s₃, hday, h⟩ := run_bind_eq_ok.mp h
  obtain ⟨hour, s₄, hhour, h⟩ := run_bind_eq_ok.mp h
  obtain ⟨minute, s₅, hminute, h⟩ := run_bind_eq_ok.mp h
  obtain ⟨second, s₆, hsecond, h⟩ := run_bind_eq_ok.mp h
  obtain ⟨last, s₇, hlast, hend⟩ := run_bind_eq_ok.mp h
  obtain ⟨hlength, hfour, hdigits⟩ : 4 ≤ s.octets.length ∧ s₁.octets = s.octets.drop 4 ∧
      ∀ b ∈ s.octets.take 4, 0x30 ≤ b := of_number hyear
  have hfourteen : s₆.octets = s.octets.drop 14 := by
    rw [(of_number hsecond).2.1, (of_number hminute).2.1, (of_number hhour).2.1,
      (of_number hday).2.1, (of_number hmonth).2.1, hfour]
    simp only [List.drop_drop]
  constructor
  · obtain ⟨b, rest, hs⟩ := List.exists_cons_of_length_pos (by omega : 0 < s.octets.length)
    exact ⟨b, rest, hs, hdigits b (by simp [hs])⟩
  · obtain rfl := octet_eq_ok.mp hlast
    split at hend
    · obtain ⟨_, _, hthrow, -⟩ := run_bind_eq_ok.mp hend
      exact absurd hthrow run_throw_ne_ok
    · rename_i hletter
      exact ⟨s₇.octets, by rw [← hfourteen, Decidable.not_not.mp hletter]⟩

/-- What is read of a moment is the content that has been announced for it. -/
theorem of_decode_encode {u : Time} (h : t.nanos = 0) (hread : decode read t.encode = .ok u) :
    ∃ s, readContent t.tag ⟨t.content.take t.announced, some 0⟩ = .ok (u, s) := by
  have hbound : (t.content.take t.announced).length < lengthBound :=
    Nat.lt_of_le_of_lt (List.length_take_le _ _) t.announced_lt
  obtain ⟨rest, hread⟩ := Der.of_decode hread
  rw [encode_eq h] at hread
  obtain ⟨e, after, he, hread⟩ := run_bind_eq_ok.mp hread
  rw [Input.whole, takes_element (opens_tag t) hbound, Except.ok.injEq, Prod.mk.injEq] at he
  obtain ⟨rfl, rfl⟩ := he
  obtain ⟨v, hv, hpair⟩ := run_lift_eq_ok.mp hread
  obtain ⟨s, hs, -⟩ := Input.of_readAll hv
  obtain ⟨rfl, -⟩ := Prod.mk.inj hpair
  exact ⟨s, hs⟩

/-- A year before 0 begins with its sign, and a year after 9999 goes on where the letter is due. -/
theorem year_of_decode {u : Time} (h : t.nanos = 0) (hread : decode read t.encode = .ok u) :
    0 ≤ t.clock.year ∧ t.clock.year ≤ 9999 := by
  obtain ⟨s, hs⟩ := of_decode_encode h hread
  by_contra hyear
  have hlong : ¬(1950 ≤ t.clock.year ∧ t.clock.year ≤ 2049) := by omega
  rw [← isShortYear_iff] at hlong
  rw [tag, announced, if_neg hlong, if_neg hlong] at hs
  obtain ⟨⟨b, rest, hfirst, hdigit⟩, letters, hlast⟩ := of_readContent hs
  dsimp only at hfirst hlast
  rw [content_eq, writtenYear, if_neg hlong] at hfirst hlast
  rcases Int.lt_or_le t.clock.year 0 with hneg | hnonneg
  · rw [longYear, if_pos hneg] at hfirst
    obtain ⟨rfl, -⟩ := List.cons.inj hfirst
    exact absurd hdigit (by decide)
  · have hlarge : 10 ^ 4 ≤ t.clock.year.toNat := by omega
    have hlength := lt_length_padded hlarge
    rw [longYear, if_neg (by omega)] at hlast
    have hmany : 15 ≤ ((padded 4 t.clock.year.toNat ++ digitsBelowYear t.clock).map
        Char.toUInt8).length := by
      rw [List.length_map, List.length_append, length_digitsBelowYear (isValid_clock h).1]
      omega
    rw [List.take_append_of_le_length hmany] at hlast
    have hletter : (0x5a : UInt8) ∈ (padded 4 t.clock.year.toNat ++ digitsBelowYear t.clock).map
        Char.toUInt8 :=
      List.mem_of_mem_take (List.mem_of_mem_drop (hlast ▸ List.mem_cons_self))
    refine letter_notMem_of_isDigit (fun c hc => ?_) hletter
    exact (List.mem_append.mp hc).elim (isDigit_of_mem_padded c) (isDigit_of_mem_digitsBelowYear c)

/-! ### All moments -/

/-- The encoding shows the moment: it announces what is written, under the tag for its year, and is
    read as the moment again. -/
structure IsShown (t : Time) : Prop where
  decode_eq : decode read t.encode = .ok t
  announced_eq : t.announced = t.content.length
  encode_eq : t.encode = value (if 1950 ≤ t.clock.year ∧ t.clock.year ≤ 2049 then Tag.utcTime
    else Tag.generalizedTime) t.content

theorem IsPlain.isShown (h : t.IsPlain) : t.IsShown where
  decode_eq := (takes_read h).decode
  announced_eq := h.length_content.symm
  encode_eq := by
    simp only [← isShortYear_iff]
    rw [value, h.length_content]
    rfl

/-- Of the moments in whole seconds, those in years of four digits and no other ones are read back;
    and all that is read is such a moment. -/
theorem decode_encode_exact :
    (∀ s t, ofSeconds? s = some t →
      (0 ≤ t.clock.year ∧ t.clock.year ≤ 9999 → t.IsShown) ∧
      (¬(0 ≤ t.clock.year ∧ t.clock.year ≤ 9999) → ∃ e, decode read t.encode = .error e)) ∧
    ∀ input t rest, read input = .ok (t, rest) →
      t.nanos = 0 ∧ 0 ≤ t.clock.year ∧ t.clock.year ≤ 9999 ∧ decode read t.encode = .ok t := by
  constructor
  · intro s t hs
    have hwhole := nanos_of_ofSeconds? hs
    refine ⟨fun hyear => IsPlain.isShown ⟨hwhole, hyear.1, hyear.2⟩, fun hyear => ?_⟩
    cases hread : decode read t.encode with
    | ok u => exact absurd (year_of_decode hwhole hread) hyear
    | error e => exact ⟨e, rfl⟩
  · intro input t rest hread
    have hplain := ensures_read input t rest hread
    exact ⟨hplain.whole, hplain.year_nonneg, hplain.year_le, hplain.isShown.decode_eq⟩

/-- The first moment of the year 2050 is read back, that of the year 10000 is not. -/
theorem decode_encode_exact_samples :
    (∃ t, ofSeconds? 2524608000 = some t ∧ t.clock.year = 2050 ∧ t.IsShown) ∧
      ∃ t, ofSeconds? 253402300800 = some t ∧ t.clock.year = 10000 ∧
        ∃ e, decode read t.encode = .error e := by
  constructor
  · refine ⟨⟨2524608000, 0, by decide⟩, rfl, by decide +kernel, ?_⟩
    exact (decode_encode_exact.1 2524608000 _ rfl).1 (by decide +kernel)
  · refine ⟨⟨253402300800, 0, by decide⟩, rfl, by decide +kernel, ?_⟩
    exact (decode_encode_exact.1 253402300800 _ rfl).2 (by decide +kernel)

end ResourcePki.Time

import DatedLedger.Proofs.Calendar.Order
import DatedLedger.Proofs.Calendar.ReadBack

/-!
# Dates in the order of their texts

The store compares dates by their texts.  Among the years that are written with four
digits and no sign, that is the order of the calendar: year, month and day stand in
fixed places, each with zeros in front.  Every other year has a sign.  A plus sign
comes before a minus sign and both before a digit, and behind the sign as many digits
are compared as the shorter year has.  So two dates stand in the order of their texts
exactly when they lie in one year or `YearsInTextOrder` holds of their years.
-/

namespace DatedLedger

namespace Date

open Text

variable {a b : Date}

/-- The year is written with four digits and no sign. -/
def HasFourDigitYear (d : Date) : Prop :=
  0 ≤ d.year ∧ d.year ≤ 9999

/-! ## Dates of one year -/

/-- The month and the day of a date, as they are written behind the year. -/
def dayChars (d : Date) : List Char :=
  padded 2 d.month ++ '-' :: padded 2 d.day

theorem chars_eq_append (d : Date) : d.chars = yearText d.year ++ '-' :: d.dayChars := rfl

theorem month_lt (d : Date) : d.month < 10 ^ 2 := by
  have hmonth := d.valid.month_le
  omega

theorem day_lt (d : Date) : d.day < 10 ^ 2 := by
  have hday := d.valid.day_le
  have hdays := daysIn_le d.year d.month
  omega

theorem cons_hyphen_lt_iff {us vs : List Char} : '-' :: us < '-' :: vs ↔ us < vs :=
  List.cons_lt_cons_self

theorem dayChars_lt_iff :
    a.dayChars < b.dayChars ↔ a.month < b.month ∨ a.month = b.month ∧ a.day < b.day := by
  rw [dayChars, dayChars, padded_append_lt_iff (by decide) a.month_lt b.month_lt,
    cons_hyphen_lt_iff, padded_lt_padded_iff (by decide) a.day_lt b.day_lt]

theorem text_lt_iff : a.text < b.text ↔
    yearText a.year ++ '-' :: a.dayChars < yearText b.year ++ '-' :: b.dayChars := by
  rw [String.lt_iff, text, text, String.toList_ofList, String.toList_ofList, chars_eq_append,
    chars_eq_append]

theorem text_lt_text_iff_of_year_eq (hyears : a.year = b.year) : a.text < b.text ↔ a < b := by
  rw [text_lt_iff, hyears, append_lt_append_iff rfl, cons_hyphen_lt_iff, dayChars_lt_iff,
    lt_iff_parts]
  simp [hyears]

/-! ## Years without a sign -/

theorem HasFourDigitYear.yearText_eq {d : Date} (hd : d.HasFourDigitYear) :
    yearText d.year = padded 4 d.year.toNat :=
  if_pos hd

/-- Dates of years with four digits stand in the order of their texts. -/
theorem text_lt_text_iff (ha : a.HasFourDigitYear) (hb : b.HasFourDigitYear) :
    a.text < b.text ↔ a < b := by
  have hyears := ha.yearText_eq
  have hyears' := hb.yearText_eq
  obtain ⟨hlowa, hhigha⟩ := ha
  obtain ⟨hlowb, hhighb⟩ := hb
  have hlt : a.year.toNat < b.year.toNat ↔ a.year < b.year := by omega
  have heq : a.year.toNat = b.year.toNat ↔ a.year = b.year := by omega
  rw [text_lt_iff, hyears, hyears', padded_append_lt_iff (by decide) (by omega) (by omega),
    cons_hyphen_lt_iff, dayChars_lt_iff, hlt, heq, lt_iff_parts]

theorem HasFourDigitYear.exists_yearText_eq_cons {d : Date} (hd : d.HasFourDigitYear) :
    ∃ c cs, yearText d.year = c :: cs ∧ c.isDigit := by
  obtain ⟨c, cs, hcs⟩ := List.exists_cons_of_ne_nil (padded_ne_nil 4 d.year.toNat)
  exact ⟨c, cs, hd.yearText_eq.trans hcs, isDigit_of_mem_padded 4 d.year.toNat (by simp [hcs])⟩

/-! ## Years with a sign -/

theorem yearText_of_neg {year : Int} (hyear : year < 0) :
    yearText year = '-' :: padded 4 year.natAbs := by
  rw [yearText, if_neg (by omega), if_pos hyear]

theorem yearText_of_lt {year : Int} (hyear : 9999 < year) :
    yearText year = '+' :: padded 4 year.natAbs := by
  rw [yearText, if_neg (by omega), if_neg (by omega)]

/-- A minus sign comes before every digit. -/
theorem text_lt_text_of_neg (ha : a.year < 0) (hb : b.HasFourDigitYear) : a.text < b.text := by
  obtain ⟨c, cs, hcs, hc⟩ := hb.exists_yearText_eq_cons
  rw [text_lt_iff, yearText_of_neg ha, hcs]
  exact List.cons_lt_cons_iff.mpr (.inl (hyphen_lt_of_isDigit hc))

/-- A plus sign comes before everything else that a year starts with. -/
theorem text_lt_text_of_plus (ha : a.year ≤ 9999) (hb : 9999 < b.year) : b.text < a.text := by
  rw [text_lt_iff, yearText_of_lt hb]
  rcases Int.lt_or_le a.year 0 with hneg | hpos
  · rw [yearText_of_neg hneg]
    exact List.cons_lt_cons_iff.mpr (.inl (by decide))
  · obtain ⟨c, cs, hcs, hc⟩ := HasFourDigitYear.exists_yearText_eq_cons ⟨hpos, ha⟩
    rw [hcs]
    exact List.cons_lt_cons_iff.mpr (.inl (Char.lt_trans (by decide) (hyphen_lt_of_isDigit hc)))

/-- The number of digits that a year is written with. -/
def yearDigits (year : Int) : Nat :=
  max 4 (Nat.log 10 year.natAbs + 1)

/-- Behind one sign the first digits decide, as many as the smaller number has. -/
theorem cons_padded_append_lt_iff {sign : Char} {y z : Int} (h : y.natAbs < z.natAbs)
    {us vs : List Char} :
    sign :: padded 4 y.natAbs ++ '-' :: us < sign :: padded 4 z.natAbs ++ '-' :: vs ↔
      y.natAbs ≤ z.natAbs / 10 ^ (yearDigits z - yearDigits y) := by
  rw [List.cons_append, List.cons_append, List.cons_lt_cons_self, padded_append_hyphen_lt_iff h,
    length_padded_eq_max, length_padded_eq_max, yearDigits, yearDigits]

theorem text_lt_text_iff_of_both_plus (ha : 9999 < a.year) (hab : a.year < b.year) :
    a.text < b.text ↔
      a.year.natAbs ≤ b.year.natAbs / 10 ^ (yearDigits b.year - yearDigits a.year) := by
  rw [text_lt_iff, yearText_of_lt ha, yearText_of_lt (ha.trans hab),
    cons_padded_append_lt_iff (by omega)]

theorem text_lt_text_iff_not_lt (hab : a ≠ b) : a.text < b.text ↔ ¬b.text < a.text := by
  have hne : a.text ≠ b.text := fun h => hab (text_inj.mp h)
  exact ⟨String.lt_asymm, fun h => Std.lt_of_le_of_ne (String.not_lt.mp h) hne⟩

/-- Behind a minus sign the digits of the earlier year are the greater number. -/
theorem text_lt_text_iff_of_both_minus (hb : b.year < 0) (hab : a.year < b.year) :
    a.text < b.text ↔
      a.year.natAbs / 10 ^ (yearDigits a.year - yearDigits b.year) < b.year.natAbs := by
  have hne : a ≠ b := by
    rintro rfl
    exact Int.lt_irrefl _ hab
  rw [text_lt_text_iff_not_lt hne, text_lt_iff, yearText_of_neg hb, yearText_of_neg (hab.trans hb),
    cons_padded_append_lt_iff (by omega), Nat.not_le]

/-! ## Any two years -/

/-- The texts of two years stand in the order of the years, the first of which is the earlier one.
Either the later year has no sign, or both have a plus sign and the earlier one does not exceed the
first digits of the later one, or both have a minus sign and the first digits of the earlier one
are the smaller number. -/
def YearsInTextOrder (y z : Int) : Prop :=
  0 ≤ z ∧ z ≤ 9999 ∨
    9999 < y ∧ y.natAbs ≤ z.natAbs / 10 ^ (yearDigits z - yearDigits y) ∨
    z < 0 ∧ y.natAbs / 10 ^ (yearDigits y - yearDigits z) < z.natAbs

instance (y z : Int) : Decidable (YearsInTextOrder y z) :=
  inferInstanceAs (Decidable (_ ∨ _ ∨ _))

theorem year_le_of_lt (hab : a < b) : a.year ≤ b.year := by
  rw [lt_iff_parts] at hab
  omega

theorem text_lt_text_iff_of_year_lt (hab : a.year < b.year) :
    a.text < b.text ↔ YearsInTextOrder a.year b.year := by
  rcases Int.lt_or_le b.year 0 with hminus | hpos
  · rw [text_lt_text_iff_of_both_minus hminus hab, YearsInTextOrder]
    omega
  · rcases Int.lt_or_le 9999 b.year with hplus | hfour
    · rcases Int.lt_or_le 9999 a.year with hboth | hone
      · rw [text_lt_text_iff_of_both_plus hboth hab, YearsInTextOrder]
        omega
      · have hback : b.text < a.text := text_lt_text_of_plus hone hplus
        have hyears : ¬YearsInTextOrder a.year b.year := by
          rw [YearsInTextOrder]
          omega
        exact iff_of_false (String.lt_asymm hback) hyears
    · refine iff_of_true ?_ (.inl ⟨hpos, hfour⟩)
      rcases Int.lt_or_le a.year 0 with hneg | hnonneg
      · exact text_lt_text_of_neg hneg ⟨hpos, hfour⟩
      · have hearlier : a < b := lt_iff_parts.mpr (.inl hab)
        exact (text_lt_text_iff ⟨hnonneg, by omega⟩ ⟨hpos, hfour⟩).mpr hearlier

/-- Of two dates the earlier one has the smaller text exactly when they lie in one year or their
years are written in order. -/
theorem text_lt_text_iff_of_lt (hab : a < b) :
    a.text < b.text ↔ a.year = b.year ∨ YearsInTextOrder a.year b.year := by
  rcases Int.lt_or_eq_of_le (year_le_of_lt hab) with hlt | heq
  · rw [text_lt_text_iff_of_year_lt hlt, or_iff_right hlt.ne]
  · exact iff_of_true ((text_lt_text_iff_of_year_eq heq).mpr hab) (.inl heq)

/-- A year other than zero is at least one in the place of its fourth digit. -/
theorem pow_yearDigits_sub_le {year : Int} (hyear : year ≠ 0) :
    10 ^ (yearDigits year - 4) ≤ year.natAbs := by
  have hpos : year.natAbs ≠ 0 := Int.natAbs_ne_zero.mpr hyear
  have hlog : yearDigits year - 4 ≤ Nat.log 10 year.natAbs := by
    rw [yearDigits]
    omega
  exact (Nat.pow_le_pow_right (by decide) hlog).trans (Nat.pow_log_le_self 10 hpos)

theorem lt_iff_text_lt_iff (a b : Date) : (a < b ↔ a.text < b.text) ↔
    a.year = b.year ∨ YearsInTextOrder (min a.year b.year) (max a.year b.year) := by
  rcases lt_trichotomy a b with hab | rfl | hba
  · have hle := year_le_of_lt hab
    rw [min_eq_left hle, max_eq_right hle, iff_true_left hab]
    exact text_lt_text_iff_of_lt hab
  · exact iff_of_true (iff_of_false (lt_irrefl a) (String.lt_irrefl _)) (.inl rfl)
  · have hle := year_le_of_lt hba
    rw [min_eq_right hle, max_eq_left hle, iff_false_left hba.asymm,
      ← text_lt_text_iff_not_lt hba.ne, eq_comm]
    exact text_lt_text_iff_of_lt hba

/-- A date outside the years -1 to 9999 is out of order with one inside them. -/
theorem exists_not_lt_iff_text_lt (hyear : a.year < -1 ∨ 9999 < a.year) :
    ∃ b : Date, (-1 ≤ b.year ∧ b.year ≤ 9999) ∧ ¬(a < b ↔ a.text < b.text) := by
  rcases hyear with hminus | hplus
  · obtain ⟨b, hb⟩ : ∃ b : Date, b.year = -1 := ⟨⟨-1, 12, 31, by decide⟩, rfl⟩
    have hyear : a.year ≠ 0 := by omega
    have hfirst := Nat.div_pos (pow_yearDigits_sub_le hyear) (Nat.pow_pos (by decide))
    have hdigits : yearDigits (-1) = 4 := by decide
    refine ⟨b, by omega, ?_⟩
    rw [lt_iff_text_lt_iff, hb, min_eq_left (by omega), max_eq_right (by omega), YearsInTextOrder,
      hdigits]
    omega
  · obtain ⟨b, hb⟩ : ∃ b : Date, b.year = 9999 := ⟨⟨9999, 12, 31, by decide⟩, rfl⟩
    refine ⟨b, by omega, ?_⟩
    rw [lt_iff_text_lt_iff, hb, min_eq_right (by omega), max_eq_left (by omega), YearsInTextOrder]
    omega

/-- Two dates stand in the order of their texts exactly when they lie in one year or their years
are written in order.  So all dates do that lie in the years -1 to 9999, and these years cannot be
extended, as every date outside them is out of order with one inside. -/
theorem text_order (a b : Date) :
    ((a < b ↔ a.text < b.text) ↔
      a.year = b.year ∨ YearsInTextOrder (min a.year b.year) (max a.year b.year)) ∧
    (-1 ≤ a.year ∧ a.year ≤ 9999 → -1 ≤ b.year ∧ b.year ≤ 9999 → (a < b ↔ a.text < b.text)) ∧
    (a.year < -1 ∨ 9999 < a.year →
      ∃ c : Date, (-1 ≤ c.year ∧ c.year ≤ 9999) ∧ ¬(a < c ↔ a.text < c.text)) := by
  refine ⟨lt_iff_text_lt_iff a b, ?_, fun hyear => exists_not_lt_iff_text_lt hyear⟩
  intro ha hb
  rw [lt_iff_text_lt_iff, YearsInTextOrder]
  omega

theorem text_order_sample :
    (∃ a b : Date, a.year = -1 ∧ b.year = 9999 ∧ a.text < b.text) ∧
      (∃ a b : Date, a.year = 10000 ∧ b.year = 100000 ∧ (a < b ↔ a.text < b.text)) ∧
      ∃ a b : Date, a.year = -300 ∧ b.year = -299 ∧ ¬(a < b ↔ a.text < b.text) := by
  refine ⟨⟨⟨-1, 12, 31, by decide⟩, ⟨9999, 1, 1, by decide⟩, rfl, rfl, ?_⟩,
    ⟨⟨10000, 12, 31, by decide⟩, ⟨100000, 1, 1, by decide⟩, rfl, rfl, ?_⟩,
    ⟨⟨-300, 12, 31, by decide⟩, ⟨-299, 1, 1, by decide⟩, rfl, rfl, ?_⟩⟩
  · exact ((text_order _ _).2.1 (by decide) (by decide)).mp (by decide)
  · exact (text_order _ _).1.mpr (by decide)
  · rw [(text_order _ _).1]
    decide

/-- The day after the last one with four digits has a smaller text. -/
theorem not_forall_lt_iff_text_lt : ¬∀ a b : Date, a < b ↔ a.text < b.text := by
  intro hall
  have htext := (hall ⟨9999, 12, 31, by decide⟩ ⟨10000, 1, 1, by decide⟩).mp (by decide)
  exact String.lt_asymm htext (text_lt_text_of_plus (by decide) (by decide))

end Date

end DatedLedger

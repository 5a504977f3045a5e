/-!
# Dates

Dates of the proleptic Gregorian calendar, in the years -262143 to 262142.  They
are ordered by their place in a grid of twelve months of thirty-one days, which
every calendar date has a place of its own in.
-/

namespace DatedLedger

namespace Date

/-- A year is a leap year when four divides it, except centuries that 400 does not divide. -/
def isLeapYear (year : Int) : Bool :=
  year % 4 == 0 && (year % 100 != 0 || year % 400 == 0)

/-- The number of days of a month. -/
def daysIn (year : Int) (month : Nat) : Nat :=
  if month = 2 then (if isLeapYear year then 29 else 28)
  else if month = 4 || month = 6 || month = 9 || month = 11 then 30
  else 31

/-- The least supported year. -/
def firstYear : Int := -262143

/-- The greatest supported year. -/
def lastYear : Int := 262142

/-- The year is supported, and the day exists in the month. -/
structure Valid (year : Int) (month day : Nat) : Prop where
  firstYear_le : firstYear ≤ year
  le_lastYear : year ≤ lastYear
  one_le_month : 1 ≤ month
  month_le : month ≤ 12
  one_le_day : 1 ≤ day
  day_le : day ≤ daysIn year month

instance (year : Int) (month day : Nat) : Decidable (Valid year month day) :=
  decidable_of_iff
    (firstYear ≤ year ∧ year ≤ lastYear ∧ 1 ≤ month ∧ month ≤ 12 ∧ 1 ≤ day ∧
      day ≤ daysIn year month)
    ⟨fun ⟨a, b, c, d, e, f⟩ => ⟨a, b, c, d, e, f⟩, fun ⟨a, b, c, d, e, f⟩ => ⟨a, b, c, d, e, f⟩⟩

end Date

/-- A day of the supported calendar. -/
structure Date where
  year : Int
  month : Nat
  day : Nat
  valid : Date.Valid year month day
  deriving DecidableEq

namespace Date

/-- The date of a year, month and day, if there is one. -/
def of? (year : Int) (month day : Nat) : Option Date :=
  if h : Valid year month day then some ⟨year, month, day, h⟩ else none

/-- The place of the date in a grid of twelve months of thirty-one days each year. -/
def slot (d : Date) : Int :=
  (d.year * 12 + (d.month - 1 : Nat)) * 31 + (d.day - 1 : Nat)

instance : LE Date := ⟨fun a b => a.slot ≤ b.slot⟩

instance : LT Date := ⟨fun a b => a.slot < b.slot⟩

instance (a b : Date) : Decidable (a ≤ b) := inferInstanceAs (Decidable (a.slot ≤ b.slot))

instance (a b : Date) : Decidable (a < b) := inferInstanceAs (Decidable (a.slot < b.slot))

theorem le_iff {a b : Date} : a ≤ b ↔ a.slot ≤ b.slot := .rfl

theorem lt_iff {a b : Date} : a < b ↔ a.slot < b.slot := .rfl

theorem daysIn_le (year : Int) (month : Nat) : daysIn year month ≤ 31 := by
  unfold daysIn
  repeat' split
  all_goals omega

/-- A date is determined by its place. -/
theorem slot_inj {a b : Date} : a.slot = b.slot ↔ a = b := by
  refine ⟨fun h => ?_, fun h => h ▸ rfl⟩
  have := a.valid.one_le_month
  have := a.valid.month_le
  have := a.valid.one_le_day
  have := a.valid.day_le
  have := b.valid.one_le_month
  have := b.valid.month_le
  have := b.valid.one_le_day
  have := b.valid.day_le
  have := daysIn_le a.year a.month
  have := daysIn_le b.year b.month
  obtain ⟨ya, ma, da, va⟩ := a
  obtain ⟨yb, mb, db, vb⟩ := b
  simp only [slot] at *
  have hy : ya = yb := by omega
  have hm : ma = mb := by omega
  have hd : da = db := by omega
  subst hy hm hd
  rfl

end Date

end DatedLedger

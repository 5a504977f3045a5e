import DatedLedger.Calendar.Date
import Mathlib.Data.List.Perm.Subperm
import Mathlib.Order.Basic

/-!
# Dates in order

Since a date is determined by its place, dates are linearly ordered.  The order is
that of year, month and day.  There are fewer places than numbers of versions.
-/

namespace DatedLedger

namespace Date

instance : LinearOrder Date where
  le_refl a := Int.le_refl a.slot
  le_trans _ _ _ := Int.le_trans
  lt_iff_le_not_ge _ _ := Int.lt_iff_le_and_not_ge
  le_antisymm _ _ hab hba := slot_inj.mp (Int.le_antisymm hab hba)
  le_total a b := Int.le_total a.slot b.slot
  toDecidableLE := inferInstance
  toDecidableEq := inferInstance
  toDecidableLT := inferInstance

theorem lt_iff_parts {a b : Date} :
    a < b ↔ a.year < b.year ∨ a.year = b.year ∧
      (a.month < b.month ∨ a.month = b.month ∧ a.day < b.day) := by
  have hmontha := a.valid.month_le
  have hmonthb := b.valid.month_le
  have hmontha' := a.valid.one_le_month
  have hmonthb' := b.valid.one_le_month
  have hdaya := a.valid.day_le
  have hdayb := b.valid.day_le
  have hdaya' := a.valid.one_le_day
  have hdayb' := b.valid.one_le_day
  have hdaysa := daysIn_le a.year a.month
  have hdaysb := daysIn_le b.year b.month
  rw [lt_iff, slot, slot]
  omega

theorem slot_bounds (d : Date) : firstYear * 372 ≤ d.slot ∧ d.slot < (lastYear + 1) * 372 := by
  have hfirst := d.valid.firstYear_le
  have hlast := d.valid.le_lastYear
  have hmonth := d.valid.month_le
  have hday := d.valid.day_le
  have hdays := daysIn_le d.year d.month
  rw [slot]
  omega

/-- Different dates run out before the numbers of versions do. -/
theorem length_lt_of_nodup {dates : List Date} (h : dates.Nodup) : dates.length < 2 ^ 32 - 1 := by
  have hplaces : (dates.map fun d => (d.slot - firstYear * 372).toNat).Nodup := by
    refine List.pairwise_map.mpr (h.imp ?_)
    intro a b hne hsame
    have ha := a.slot_bounds
    have hb := b.slot_bounds
    exact hne (slot_inj.mp (by omega))
  have hgrid : (dates.map fun d => (d.slot - firstYear * 372).toNat) ⊆ List.range 195034392 := by
    intro n hn
    obtain ⟨d, -, rfl⟩ := List.mem_map.mp hn
    have hd := d.slot_bounds
    rw [firstYear, lastYear] at hd
    rw [List.mem_range, firstYear]
    omega
  have hle := (List.subperm_of_subset hplaces hgrid).length_le
  rw [List.length_map, List.length_range] at hle
  omega

end Date

end DatedLedger

import DatedLedger.Binary64.Text
import DatedLedger.Proofs.Text.Integers
import Mathlib.Data.List.TakeWhile

/-!
# Natural numbers as doubles

A natural number below 2 ^ 53 is a double, and its rank is given by its binary logarithm
and its digits behind the first.  Rounding takes no greater number to the same rank, so a
natural number is compared with such a bound exactly, however great it is.  The decimal
text of an integer is read as the double that the integer is rounded to.
-/

namespace DatedLedger

namespace Binary64

variable {m n num den : Nat}

/-! ## Rounding natural numbers -/

theorem floorLog_one (hn : n ≠ 0) : floorLog n 1 = n.log2 := by
  have hle := Nat.log2_self_le hn
  have hfloor : atLeastPow n 1 n.log2 := by
    have hpos : (n.log2 : Int).toNat = n.log2 := Int.toNat_natCast _
    have hneg : (-(n.log2 : Int)).toNat = 0 := by omega
    simpa only [atLeastPow, hpos, hneg, Nat.pow_zero, Nat.mul_one, Nat.one_mul,
      decide_eq_true_eq] using hle
  have hone : (n.log2 : Int) - (Nat.log2 1 : Nat) = n.log2 := by
    have : Nat.log2 1 = 0 := by decide
    omega
  simp only [floorLog, hone, hfloor, if_true]

/-- The rank of a natural number: its binade, and its digits behind the first as a significand. -/
theorem roundRank_one (hn : n ≠ 0) :
    roundRank n 1 = (n.log2 + 1022) * binade +
      roundHalfEven (n * 2 ^ (52 - n.log2)) (2 ^ (n.log2 - 52)) := by
  have hquantum : max ((n.log2 : Int) - 52) leastExponent = (n.log2 : Int) - 52 := by
    rw [leastExponent]
    omega
  have hbinade : ((n.log2 : Int) - 52 - leastExponent).toNat = n.log2 + 1022 := by
    rw [leastExponent]
    omega
  have hscale : (-((n.log2 : Int) - 52)).toNat = 52 - n.log2 := by omega
  have hunit : ((n.log2 : Int) - 52).toNat = n.log2 - 52 := by omega
  simp only [roundRank, if_neg hn, floorLog_one hn, hquantum, hbinade, hscale, hunit, Nat.one_mul]

theorem roundHalfEven_one (num : Nat) : roundHalfEven num 1 = num := by
  simp [roundHalfEven, Nat.mod_one]

theorem div_le_roundHalfEven (num den : Nat) : num / den ≤ roundHalfEven num den := by
  simp only [roundHalfEven]
  split
  · exact Nat.le_refl _
  · split <;> omega

/-- A number that a significand can hold is not rounded. -/
theorem roundRank_of_lt (hn : n ≠ 0) (h : n < 2 ^ 53) :
    roundRank n 1 = (n.log2 + 1022) * binade + n * 2 ^ (52 - n.log2) := by
  have hlog := (Nat.log2_lt hn).mpr h
  rw [roundRank_one hn, Nat.sub_eq_zero_of_le (by omega : n.log2 ≤ 52), Nat.pow_zero,
    roundHalfEven_one]

/-- No number is rounded below the power of two that begins its binade. -/
theorem le_roundRank (hn : n ≠ 0) : (n.log2 + 1023) * binade ≤ roundRank n 1 := by
  have hsignificand : binade ≤ roundHalfEven (n * 2 ^ (52 - n.log2)) (2 ^ (n.log2 - 52)) := by
    refine Nat.le_trans ?_ (div_le_roundHalfEven _ _)
    rw [Nat.le_div_iff_mul_le (Nat.pow_pos (by decide))]
    calc binade * 2 ^ (n.log2 - 52)
      _ = 2 ^ n.log2 * 2 ^ (52 - n.log2) := by
        rw [binade, ← Nat.pow_add, ← Nat.pow_add]
        congr 1
        omega
      _ ≤ n * 2 ^ (52 - n.log2) := Nat.mul_le_mul_right _ (Nat.log2_self_le hn)
  rw [roundRank_one hn, show n.log2 + 1023 = n.log2 + 1022 + 1 from rfl, Nat.succ_mul]
  omega

/-- Rounding keeps a number that a significand can hold below every greater number. -/
theorem roundRank_lt_roundRank (hm : m ≠ 0) (hmn : m < n) (h : m < 2 ^ 53) :
    roundRank m 1 < roundRank n 1 := by
  have hn : n ≠ 0 := by omega
  have hnext := Nat.lt_log2_self (n := m)
  have hlogm := (Nat.log2_lt hm).mpr h
  rw [roundRank_of_lt hm h]
  by_cases hlog : n.log2 = m.log2
  · have hlt : n < 2 ^ 53 := (Nat.log2_lt hn).mp (hlog ▸ hlogm)
    have hmul := Nat.mul_lt_mul_of_pos_right hmn
      (Nat.pow_pos (n := 52 - m.log2) (a := 2) (by decide))
    rw [roundRank_of_lt hn hlt, hlog]
    omega
  -- A number of a later binade lies above the whole binade of the smaller one.
  · have hle : m.log2 < n.log2 := by
      have hmono : m.log2 ≤ n.log2 := by
        rw [← Nat.not_lt, Nat.log2_lt hn]
        have := Nat.log2_self_le hm
        omega
      omega
    have hpower : 2 * binade = 2 ^ (m.log2 + 1) * 2 ^ (52 - m.log2) := by
      rw [binade, ← Nat.pow_add, ← Nat.pow_succ']
      congr 1
      omega
    have hmul := Nat.mul_lt_mul_of_pos_right hnext
      (Nat.pow_pos (n := 52 - m.log2) (a := 2) (by decide))
    have hbinades := Nat.mul_le_mul_right binade (show m.log2 + 1024 ≤ n.log2 + 1023 by omega)
    have hrank := le_roundRank hn
    rw [← hpower] at hmul
    rw [Nat.add_mul] at hbinades
    rw [Nat.add_mul]
    omega

theorem roundRank_pos (hn : n ≠ 0) : 0 < roundRank n 1 := by
  have hrank := le_roundRank hn
  rw [binade] at hrank
  omega

theorem roundRank_lt_infinityRank (h : n < 2 ^ 53) : roundRank n 1 < infinityRank := by
  by_cases hn : n = 0
  · subst hn
    decide
  · have hlast : roundRank (2 ^ 53) 1 < infinityRank := by decide +kernel
    exact Nat.lt_trans (roundRank_lt_roundRank hn h h) hlast

/-- The double of a number that a significand can hold bounds the doubles of exactly the natural
numbers that are not greater. -/
theorem roundRank_le_roundRank_iff (hm : m < 2 ^ 53) (hn : n ≠ 0) :
    roundRank n 1 ≤ roundRank m 1 ↔ n ≤ m := by
  constructor
  · intro hrank
    by_contra hle
    by_cases hzero : m = 0
    · subst hzero
      have hpos := roundRank_pos hn
      rw [show roundRank 0 1 = 0 from rfl] at hrank
      omega
    · have hlt := roundRank_lt_roundRank hzero (Nat.lt_of_not_le hle) hm
      omega
  · intro hle
    rcases Nat.eq_or_lt_of_le hle with rfl | hlt
    · exact Nat.le_refl _
    · exact Nat.le_of_lt (roundRank_lt_roundRank hn hlt (by omega))

theorem ofRatio?_eq_some_iff {negative : Bool} {x : Binary64} :
    ofRatio? negative num den = some x ↔ x.negative = negative ∧ x.rank = roundRank num den := by
  rw [ofRatio?, ofRank?]
  split
  next h =>
    rw [Option.some.injEq]
    constructor
    · rintro rfl
      exact ⟨rfl, rfl⟩
    · rintro ⟨rfl, hrank⟩
      obtain ⟨negative, rank, hfinite⟩ := x
      cases hrank
      rfl
  next h =>
    refine ⟨nofun, ?_⟩
    rintro ⟨-, hrank⟩
    exact absurd (hrank ▸ x.finite) h

/-- What a natural number is rounded to is positive and at most the double of a bound exactly when
the number is so. -/
theorem exists_isPositiveUpTo_iff {negative : Bool} {bound : Binary64} (hm : m < 2 ^ 53)
    (hbound : ofNat? m = some bound) :
    (∃ x, ofRatio? negative n 1 = some x ∧ x.isPositiveUpTo bound) ↔
      negative = false ∧ n ≠ 0 ∧ n ≤ m := by
  have hrank := (ofRatio?_eq_some_iff.mp hbound).2
  simp only [ofRatio?_eq_some_iff, isPositiveUpTo, Bool.and_eq_true, Bool.not_eq_true',
    decide_eq_true_eq, hrank]
  constructor
  · rintro ⟨x, ⟨hsign, hx⟩, ⟨hpositive, hpos⟩, hle⟩
    rw [hx] at hpos hle
    have hn : n ≠ 0 := by
      rintro rfl
      rw [show roundRank 0 1 = 0 from rfl] at hpos
      omega
    exact ⟨hsign.symm.trans hpositive, hn, (roundRank_le_roundRank_iff hm hn).mp hle⟩
  · rintro ⟨hsign, hn, hle⟩
    have hle := (roundRank_le_roundRank_iff hm hn).mpr hle
    have hfinite := Nat.lt_of_le_of_lt hle (roundRank_lt_infinityRank hm)
    exact ⟨⟨negative, _, hfinite⟩, ⟨rfl, rfl⟩, ⟨hsign, roundRank_pos hn⟩, hle⟩

/-! ## Texts of integers -/

/-- The exact decimal number of an integer is rounded as the integer is. -/
theorem ofDecimal?_zero {negative : Bool} (hn : n = 0 → negative = false) (h : n < 10 ^ 100) :
    ofDecimal? negative n 0 = ofRatio? negative n 1 := by
  by_cases hzero : n = 0
  · subst hzero
    rw [hn rfl]
    rfl
  · have hlength : (Text.digits n).length ≤ 100 := by
      rw [Text.length_digits]
      exact Nat.log_lt_of_lt_pow hzero h
    have hshort : ¬((Text.digits n).length : Int) < -decimalReach := by
      rw [decimalReach]
      omega
    have hlong : ¬decimalReach < ((Text.digits n).length : Int) := by
      rw [decimalReach]
      omega
    simp [ofDecimal?, hzero, hshort, hlong]

theorem readUnsigned?_digits {negative : Bool} (hn : n = 0 → negative = false) (h : n < 10 ^ 100) :
    readUnsigned? negative (Text.digits n) = ofRatio? negative n 1 := by
  have hall : ∀ c ∈ Text.digits n, c.isDigit := fun c hc => Text.isDigit_of_mem_digits hc
  have hempty : (Text.digits n).isEmpty = false :=
    List.isEmpty_eq_false_iff.mpr (Text.digits_ne_nil n)
  rw [← ofDecimal?_zero hn h, readUnsigned?, List.takeWhile_eq_self_iff.mpr hall,
    List.dropWhile_eq_nil_iff.mpr hall]
  simp [fractionOf, exponentOf?, hempty, Text.natValue_digits]

/-- The decimal text of an integer is read as the double that the integer is rounded to. -/
theorem read?_integer {i : Int} (h : i.natAbs < 10 ^ 100) :
    read? (Text.integer i) = ofRatio? (i < 0) i.natAbs 1 := by
  by_cases hneg : i < 0
  · rw [Text.integer, if_pos hneg, read?, readUnsigned?_digits (by omega) h, decide_eq_true hneg]
  · rw [Text.integer, if_neg hneg, read?, readUnsigned?_digits (by simp) h,
      decide_eq_false hneg]
    · exact fun cs => Text.digits_ne_cons (by decide) i.natAbs cs
    · exact fun cs => Text.digits_ne_cons (by decide) i.natAbs cs

end Binary64

end DatedLedger

import DatedLedger.Text.Blank
import DatedLedger.Text.Decimal
import Mathlib.Data.Nat.Log

/-!
# Digits read back

The digits of a number denote that number, whatever zeros are put in front of them,
and they begin with a zero only for the number zero itself.  Texts of digits that
are equally long stand in the order of their numbers.  With a hyphen behind it, a number
stands before a greater one exactly when it does not exceed what as many first digits of
that one denote.
-/

namespace DatedLedger

namespace Text

theorem isDigit_digitChar {d : Nat} (hd : d < 10) : (digitChar d).isDigit := by
  have hall : ∀ d < 10, (digitChar d).isDigit = true := by decide
  exact hall d hd

theorem digitValue_digitChar {d : Nat} (hd : d < 10) : digitValue (digitChar d) = d := by
  have hall : ∀ d < 10, digitValue (digitChar d) = d := by decide
  exact hall d hd

theorem natValue_append_singleton (cs : List Char) (c : Char) :
    natValue (cs ++ [c]) = 10 * natValue cs + digitValue c := by
  simp [natValue]

/-- The digits of a number denote that number. -/
theorem natValue_digits (n : Nat) : natValue (digits n) = n := by
  rw [digits]
  split
  next hn =>
    simp [natValue, digitValue_digitChar hn]
  next hn =>
    have ih := natValue_digits (n / 10)
    rw [natValue_append_singleton, ih, digitValue_digitChar (by omega)]
    omega

theorem isDigit_of_mem_digits {n : Nat} {c : Char} (hc : c ∈ digits n) : c.isDigit := by
  rw [digits] at hc
  split at hc
  next hn =>
    rw [List.mem_singleton] at hc
    rw [hc]
    exact isDigit_digitChar hn
  next hn =>
    rw [List.mem_append, List.mem_singleton] at hc
    rcases hc with hc | rfl
    · exact isDigit_of_mem_digits hc
    · exact isDigit_digitChar (by omega)
termination_by n

theorem digits_ne_nil (n : Nat) : digits n ≠ [] := by
  rw [digits]
  split
  · simp
  · simp

theorem eq_nil_of_digits_eq_zero_cons {n : Nat} {cs : List Char} (h : digits n = '0' :: cs) :
    cs = [] := by
  induction n using Nat.strongRecOn generalizing cs with
  | ind n ih =>
    rw [digits] at h
    split at h
    next hn => exact (List.cons.inj h).2.symm
    next hn =>
      -- The digits in front of the last one would be those of zero, which has no such digits.
      obtain ⟨c, ds, hds⟩ := List.exists_cons_of_ne_nil (digits_ne_nil (n / 10))
      rw [hds, List.cons_append] at h
      obtain ⟨rfl, -⟩ := List.cons.inj h
      have hnil := ih (n / 10) (by omega) hds
      have hvalue := natValue_digits (n / 10)
      rw [hds, hnil] at hvalue
      have hzero : natValue ['0'] = 0 := by decide
      omega

theorem length_digits (n : Nat) : (digits n).length = Nat.log 10 n + 1 := by
  rw [digits]
  split
  next hn => rw [List.length_singleton, Nat.log_of_lt hn]
  next hn =>
    have ih := length_digits (n / 10)
    rw [List.length_append, List.length_singleton, ih,
      Nat.log_of_one_lt_of_le (by decide) (Nat.le_of_not_lt hn)]

theorem natValue_replicate_append (k : Nat) (cs : List Char) :
    natValue (List.replicate k '0' ++ cs) = natValue cs := by
  induction k with
  | zero => simp
  | succ k ih =>
    rw [List.replicate_succ, List.cons_append]
    exact ih

theorem natValue_padded (width n : Nat) : natValue (padded width n) = n := by
  rw [padded, natValue_replicate_append, natValue_digits]

theorem isDigit_of_mem_padded (width n : Nat) {c : Char} (hc : c ∈ padded width n) :
    c.isDigit := by
  rw [padded, List.mem_append] at hc
  rcases hc with hc | hc
  · rw [List.eq_of_mem_replicate hc]
    decide
  · exact isDigit_of_mem_digits hc

theorem padded_ne_nil (width n : Nat) : padded width n ≠ [] := by
  simp [padded, digits_ne_nil]

theorem length_padded_eq_max (width n : Nat) :
    (padded width n).length = max width (Nat.log 10 n + 1) := by
  rw [padded, List.length_append, List.length_replicate, length_digits]
  omega

theorem length_padded {width n : Nat} (hwidth : 0 < width) (hn : n < 10 ^ width) :
    (padded width n).length = width := by
  have hlog := Nat.log_lt_of_lt_pow' hwidth.ne' hn
  rw [length_padded_eq_max]
  omega

theorem toNat_bounds_of_isDigit {c : Char} (hc : c.isDigit) : 48 ≤ c.toNat ∧ c.toNat ≤ 57 := by
  simpa [Char.isDigit, UInt32.le_iff_toNat_le] using hc

theorem isBlank_eq_false_of_isDigit {c : Char} (hc : c.isDigit) : isBlank c = false := by
  have hrange := toNat_bounds_of_isDigit hc
  have hranges : ∀ range ∈ blankRanges, range.2 < 48 ∨ 57 < range.1 := by decide
  rw [isBlank, List.any_eq_false]
  intro range hmem
  have := hranges range hmem
  simp only [Bool.and_eq_true, decide_eq_true_eq]
  omega

theorem skipBlanks_cons {c : Char} (hc : isBlank c = false) (cs : List Char) :
    skipBlanks (c :: cs) = c :: cs := by
  simp [skipBlanks, hc]

theorem skipBlanks_append {blanks : List Char} (h : ∀ c ∈ blanks, isBlank c) (cs : List Char) :
    skipBlanks (blanks ++ cs) = skipBlanks cs :=
  List.dropWhile_append_of_pos h

/-! ## Order of texts -/

theorem lt_iff_digitValue_lt {a b : Char} (ha : a.isDigit) (hb : b.isDigit) :
    a < b ↔ digitValue a < digitValue b := by
  have hboundsa := toNat_bounds_of_isDigit ha
  have hboundsb := toNat_bounds_of_isDigit hb
  rw [Char.lt_def, UInt32.lt_iff_toNat_lt, digitValue, digitValue]
  change a.toNat < b.toNat ↔ _
  omega

theorem digitValue_inj {a b : Char} (ha : a.isDigit) (hb : b.isDigit) :
    digitValue a = digitValue b ↔ a = b := by
  have hboundsa := toNat_bounds_of_isDigit ha
  have hboundsb := toNat_bounds_of_isDigit hb
  constructor
  · intro h
    rw [digitValue, digitValue] at h
    apply Char.toNat_inj.mp
    omega
  · intro h
    rw [h]

theorem natValue_cons (c : Char) (cs : List Char) :
    natValue (c :: cs) = digitValue c * 10 ^ cs.length + natValue cs := by
  have hfold : ∀ n, cs.foldl (fun n c => 10 * n + digitValue c) n =
      n * 10 ^ cs.length + natValue cs := by
    induction cs with
    | nil => simp [natValue]
    | cons d ds ih =>
      intro n
      have hd : natValue (d :: ds) = digitValue d * 10 ^ ds.length + natValue ds := by
        rw [natValue, List.foldl_cons, ih, Nat.mul_zero, Nat.zero_add]
      rw [List.foldl_cons, ih, hd, List.length_cons, Nat.pow_succ]
      grind
  rw [natValue, List.foldl_cons, hfold, Nat.mul_zero, Nat.zero_add]

theorem natValue_lt {cs : List Char} (hcs : ∀ c ∈ cs, c.isDigit) :
    natValue cs < 10 ^ cs.length := by
  induction cs with
  | nil => simp [natValue]
  | cons c cs ih =>
    obtain ⟨hc, hcs⟩ := List.forall_mem_cons.mp hcs
    have hrest := ih hcs
    have hbounds := toNat_bounds_of_isDigit hc
    have hdigit : digitValue c ≤ 9 := by
      rw [digitValue]
      omega
    have hmul := Nat.mul_le_mul_right (10 ^ cs.length) hdigit
    rw [natValue_cons, List.length_cons, Nat.pow_succ]
    omega

theorem natValue_append (xs ys : List Char) :
    natValue (xs ++ ys) = natValue xs * 10 ^ ys.length + natValue ys := by
  induction xs with
  | nil => simp [natValue]
  | cons c cs ih =>
    rw [List.cons_append, natValue_cons, natValue_cons, ih, List.length_append, Nat.pow_add,
      Nat.add_mul, Nat.mul_assoc, Nat.add_assoc]

/-- The first digits of a number denote its quotient by the weight of the others. -/
theorem natValue_take {ds : List Char} (hds : ∀ c ∈ ds, c.isDigit) (k : Nat) :
    natValue (ds.take k) = natValue ds / 10 ^ (ds.length - k) := by
  have hvalue := natValue_append (ds.take k) (ds.drop k)
  have hrest := natValue_lt fun c hc => hds c (List.mem_of_mem_drop hc (i := k))
  rw [List.take_append_drop, List.length_drop] at hvalue
  rw [List.length_drop] at hrest
  rw [hvalue, Nat.mul_comm, Nat.mul_add_div (Nat.pow_pos (by decide)), Nat.div_eq_of_lt hrest,
    Nat.add_zero]

/-- Of two texts of digits that are equally long, the smaller stands for the smaller number. -/
theorem lt_iff_natValue_lt {xs ys : List Char} (hxs : ∀ c ∈ xs, c.isDigit)
    (hys : ∀ c ∈ ys, c.isDigit) (hlength : xs.length = ys.length) :
    xs < ys ↔ natValue xs < natValue ys := by
  induction xs generalizing ys with
  | nil =>
    rw [List.eq_nil_of_length_eq_zero hlength.symm]
    simp
  | cons x xs ih =>
    cases ys with
    | nil => simp at hlength
    | cons y ys =>
      obtain ⟨hx, hxs⟩ := List.forall_mem_cons.mp hxs
      obtain ⟨hy, hys⟩ := List.forall_mem_cons.mp hys
      have htails : xs.length = ys.length := Nat.succ.inj hlength
      have hxlt := natValue_lt hxs
      have hylt := natValue_lt hys
      rw [List.cons_lt_cons_iff, ih hxs hys htails, lt_iff_digitValue_lt hx hy,
        ← digitValue_inj hx hy, natValue_cons, natValue_cons]
      rw [htails] at hxlt ⊢
      -- The first digit decides, since all that follow it weigh less than one of it.
      rcases Nat.lt_trichotomy (digitValue x) (digitValue y) with hlt | heq | hgt
      · have hmul := Nat.mul_le_mul_right (10 ^ ys.length) hlt
        rw [Nat.succ_mul] at hmul
        omega
      · rw [heq]
        omega
      · have hmul := Nat.mul_le_mul_right (10 ^ ys.length) hgt
        rw [Nat.succ_mul] at hmul
        omega

theorem natValue_inj {xs ys : List Char} (hxs : ∀ c ∈ xs, c.isDigit) (hys : ∀ c ∈ ys, c.isDigit)
    (hlength : xs.length = ys.length) : natValue xs = natValue ys ↔ xs = ys := by
  refine ⟨?_, congrArg natValue⟩
  intro h
  have hxy := lt_iff_natValue_lt hxs hys hlength
  have hyx := lt_iff_natValue_lt hys hxs hlength.symm
  apply List.le_antisymm
  · rw [← List.not_lt, hyx]
    omega
  · rw [← List.not_lt, hxy]
    omega

theorem append_lt_append_iff {xs ys us vs : List Char} (hlength : xs.length = ys.length) :
    xs ++ us < ys ++ vs ↔ xs < ys ∨ xs = ys ∧ us < vs := by
  induction xs generalizing ys with
  | nil =>
    rw [List.eq_nil_of_length_eq_zero hlength.symm]
    simp
  | cons x xs ih =>
    cases ys with
    | nil => simp at hlength
    | cons y ys =>
      rw [List.cons_append, List.cons_append, List.cons_lt_cons_iff, List.cons_lt_cons_iff,
        ih (Nat.succ.inj hlength), List.cons.injEq]
      grind

variable {width m n : Nat}

theorem padded_lt_padded_iff (hwidth : 0 < width) (hm : m < 10 ^ width) (hn : n < 10 ^ width) :
    padded width m < padded width n ↔ m < n := by
  rw [lt_iff_natValue_lt (fun c hc => isDigit_of_mem_padded width m hc)
    (fun c hc => isDigit_of_mem_padded width n hc)
    (by rw [length_padded hwidth hm, length_padded hwidth hn]), natValue_padded, natValue_padded]

theorem padded_inj : padded width m = padded width n ↔ m = n := by
  constructor
  · intro h
    rw [← natValue_padded width m, h, natValue_padded]
  · intro h
    rw [h]

/-- Numbers of equal width decide the order of texts that begin with them. -/
theorem padded_append_lt_iff (hwidth : 0 < width) (hm : m < 10 ^ width) (hn : n < 10 ^ width)
    {us vs : List Char} :
    padded width m ++ us < padded width n ++ vs ↔ m < n ∨ m = n ∧ us < vs := by
  rw [append_lt_append_iff (by rw [length_padded hwidth hm, length_padded hwidth hn]),
    padded_lt_padded_iff hwidth hm hn, padded_inj]

theorem hyphen_lt_of_isDigit {c : Char} (hc : c.isDigit) : '-' < c := by
  have hbounds := toNat_bounds_of_isDigit hc
  rw [Char.lt_def, UInt32.lt_iff_toNat_lt]
  change 45 < c.toNat
  omega

/-- Of two numbers with hyphens behind them, as many digits are compared as the shorter has. -/
theorem append_hyphen_lt_iff {xs ys us vs : List Char} (hxs : ∀ c ∈ xs, c.isDigit)
    (hys : ∀ c ∈ ys, c.isDigit) (hlength : xs.length ≤ ys.length)
    (hne : natValue xs ≠ natValue ys) :
    xs ++ '-' :: us < ys ++ '-' :: vs ↔
      natValue xs ≤ natValue ys / 10 ^ (ys.length - xs.length) := by
  have hfirst : ∀ c ∈ ys.take xs.length, c.isDigit := fun c hc => hys c (List.mem_of_mem_take hc)
  have hsame : xs.length = (ys.take xs.length).length := (List.length_take_of_le hlength).symm
  have hvalue := natValue_take hys xs.length
  conv_lhs => rw [← List.take_append_drop xs.length ys]
  rw [List.append_assoc, append_lt_append_iff hsame, lt_iff_natValue_lt hxs hfirst hsame,
    ← natValue_inj hxs hfirst hsame, hvalue, Nat.le_iff_lt_or_eq]
  refine or_congr_right (and_iff_left_of_imp ?_)
  -- Different numbers with the same first digits differ in length, so a digit meets the hyphen.
  intro h
  cases hdrop : ys.drop xs.length with
  | nil =>
    rw [List.drop_eq_nil_iff] at hdrop
    rw [Nat.sub_eq_zero_of_le hdrop, Nat.pow_zero, Nat.div_one] at h
    exact absurd h hne
  | cons c cs =>
    have hc : c ∈ ys.drop xs.length := by simp [hdrop]
    rw [List.cons_append]
    exact List.cons_lt_cons_iff.mpr (.inl (hyphen_lt_of_isDigit (hys c (List.mem_of_mem_drop hc))))

theorem padded_append_hyphen_lt_iff (hmn : m < n) {us vs : List Char} :
    padded width m ++ '-' :: us < padded width n ++ '-' :: vs ↔
      m ≤ n / 10 ^ ((padded width n).length - (padded width m).length) := by
  have hlengths : (padded width m).length ≤ (padded width n).length := by
    have hlog := Nat.log_mono_right (b := 10) hmn.le
    rw [length_padded_eq_max, length_padded_eq_max]
    omega
  have hdigits : ∀ k, ∀ c ∈ padded width k, c.isDigit := fun k c => isDigit_of_mem_padded width k
  have hne : natValue (padded width m) ≠ natValue (padded width n) := by
    rw [natValue_padded, natValue_padded]
    exact hmn.ne
  rw [append_hyphen_lt_iff (hdigits m) (hdigits n) hlengths hne, natValue_padded, natValue_padded]

end Text

end DatedLedger

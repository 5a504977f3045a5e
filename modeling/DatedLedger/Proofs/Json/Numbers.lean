import DatedLedger.Proofs.Json.Members
import DatedLedger.Proofs.Text.Decimal
import Mathlib.Data.List.TakeWhile

/-!
# Texts of numbers

Whatever is read as a number begins with a digit or a minus sign and consists of the
characters of numerals.  The text of a number does so too, and that of a double has a
point or an exponent besides.  Hence the text of an integer is read as that integer,
and no text of another number is.
-/

namespace DatedLedger

namespace Json

open Text

theorem isNumeral_of_isDigit {c : Char} (hc : c.isDigit) : Scan.isNumeral c := by
  simp [Scan.isNumeral, hc]

namespace Numeral

variable {cs ds rest : List Char} {n : Numeral} {negative : Bool}

/-! ## Characters of numerals -/

theorem append_of_spanDigits (h : spanDigits cs = (ds, rest)) : ds ++ rest = cs := by
  cases h
  exact List.takeWhile_append_dropWhile

theorem isDigit_of_mem_spanDigits (h : spanDigits cs = (ds, rest)) {c : Char} (hc : c ∈ ds) :
    c.isDigit := by
  cases h
  exact List.mem_takeWhile_imp hc

/-- Digits in front of characters of numerals are characters of numerals. -/
theorem forall_isNumeral_of_spanDigits (h : spanDigits cs = (ds, rest))
    (hrest : ∀ c ∈ rest, Scan.isNumeral c) : ∀ c ∈ cs, Scan.isNumeral c := by
  rw [← append_of_spanDigits h, List.forall_mem_append]
  exact ⟨fun c hc => isNumeral_of_isDigit (isDigit_of_mem_spanDigits h hc), hrest⟩

theorem forall_isNumeral_of_exponentSign (h : exponentSign cs = (negative, ds))
    (hds : ∀ c ∈ ds, Scan.isNumeral c) : ∀ c ∈ cs, Scan.isNumeral c := by
  unfold exponentSign at h
  split at h
  · cases h
    exact List.forall_mem_cons.mpr ⟨by decide, hds⟩
  · cases h
    exact List.forall_mem_cons.mpr ⟨by decide, hds⟩
  · cases h
    exact hds

/-- An exponent is absent, or consists of characters of numerals. -/
theorem isNumeral_of_exponentOf? {e : Option (Bool × List Char)} (h : exponentOf? cs = some e) :
    (e = none → cs = []) ∧ ∀ c ∈ cs, Scan.isNumeral c := by
  cases cs with
  | nil => simp
  | cons c cs =>
    rw [exponentOf?] at h
    split at h
    next hmark =>
      split at h
      next negative ds hsign =>
        split at h
        next => cases h
        next hds =>
          have hfirst : Scan.isNumeral c := by
            rcases (Bool.or_eq_true _ _).mp hmark with hc | hc
            · simp [Scan.isNumeral, of_decide_eq_true hc]
            · simp [Scan.isNumeral, of_decide_eq_true hc]
          have hdigits : ∀ d ∈ ds, d.isDigit := by
            simp only [Bool.or_eq_true, not_or, Bool.not_eq_true, Bool.not_eq_false'] at hds
            exact List.all_eq_true.mp hds.2
          cases h
          exact ⟨nofun, List.forall_mem_cons.mpr ⟨hfirst, forall_isNumeral_of_exponentSign hsign
            fun d hd => isNumeral_of_isDigit (hdigits d hd)⟩⟩
    next => cases h

/-- A numeral without fraction and exponent has nothing behind its whole digits. -/
theorem isNumeral_of_tailOf? {whole : List Char} (h : tailOf? negative whole cs = some n) :
    (n.fraction = none → n.exponent = none → cs = []) ∧ ∀ c ∈ cs, Scan.isNumeral c := by
  unfold tailOf? at h
  split at h
  next cs =>
    split at h
    next ds rest hspan =>
      split at h
      next => cases h
      next =>
        obtain ⟨e, he, rfl⟩ := Option.map_eq_some_iff.mp h
        exact ⟨nofun, List.forall_mem_cons.mpr ⟨by decide,
          forall_isNumeral_of_spanDigits hspan (isNumeral_of_exponentOf? he).2⟩⟩
  next =>
    obtain ⟨e, he, rfl⟩ := Option.map_eq_some_iff.mp h
    exact ⟨fun _ hnone => (isNumeral_of_exponentOf? he).1 hnone, (isNumeral_of_exponentOf? he).2⟩

/-- The part of a numeral behind its sign begins with a digit. -/
theorem isNumeral_of_unsigned? (h : unsigned? negative cs = some n) :
    (n.fraction = none → n.exponent = none → ∀ c ∈ cs, c.isDigit) ∧
      (∀ c ∈ cs, Scan.isNumeral c) ∧ ∃ c rest, cs = c :: rest ∧ c.isDigit := by
  unfold unsigned? at h
  split at h
  next ds rest hspan =>
    split at h
    next => cases h
    next => cases h
    next hnil hzero =>
      obtain ⟨hplain, hnumeral⟩ := isNumeral_of_tailOf? h
      have happend := append_of_spanDigits hspan
      refine ⟨?_, forall_isNumeral_of_spanDigits hspan hnumeral, ?_⟩
      · intro hfraction hexponent c hc
        rw [← happend, hplain hfraction hexponent, List.append_nil] at hc
        exact isDigit_of_mem_spanDigits hspan hc
      · obtain ⟨c, ds, rfl⟩ := List.exists_cons_of_ne_nil hnil
        exact ⟨c, ds ++ rest, happend.symm, isDigit_of_mem_spanDigits hspan List.mem_cons_self⟩

/-- A numeral consists of characters of numerals; one without fraction and exponent has digits only
behind its sign. -/
theorem isNumeral_of_ofChars? (h : ofChars? cs = some n) :
    (n.fraction = none → n.exponent = none → ∀ c ∈ cs, c.isDigit ∨ c = '-') ∧
      (∀ c ∈ cs, Scan.isNumeral c) ∧ ∃ c rest, cs = c :: rest ∧ (c.isDigit ∨ c = '-') := by
  unfold ofChars? at h
  split at h
  next cs =>
    obtain ⟨hplain, hnumeral, -⟩ := isNumeral_of_unsigned? h
    refine ⟨?_, List.forall_mem_cons.mpr ⟨by decide, hnumeral⟩, '-', cs, rfl, .inr rfl⟩
    intro hfraction hexponent
    exact List.forall_mem_cons.mpr
      ⟨.inr rfl, fun c hc => .inl (hplain hfraction hexponent c hc)⟩
  next =>
    obtain ⟨hplain, hnumeral, c, rest, hcs, hdigit⟩ := isNumeral_of_unsigned? h
    exact ⟨fun hfraction hexponent c hc => .inl (hplain hfraction hexponent c hc), hnumeral,
      c, rest, hcs, .inl hdigit⟩

theorem read?_eq_none_of_first {c : Char} (hc : ¬(c.isDigit ∨ c = '-')) :
    read? (c :: cs) = none := by
  rw [read?]
  cases hm : ofChars? (c :: cs) with
  | none => rfl
  | some m =>
    obtain ⟨-, -, d, rest, hd, hmark⟩ := isNumeral_of_ofChars? hm
    rw [(List.cons.inj hd).1] at hc
    exact absurd hmark hc

/-- Only a numeral without fraction and exponent denotes an integer. -/
theorem plain_of_number?_eq_int {i : Int} {hfits : -2 ^ 63 ≤ i ∧ i < 2 ^ 64}
    (h : number? n = some (.int i hfits)) : n.fraction = none ∧ n.exponent = none := by
  cases hint : n.int? with
  | none =>
    rw [number?, hint] at h
    obtain ⟨x, -, hx⟩ := Option.map_eq_some_iff.mp h
    cases hx
  | some m =>
    rw [int?] at hint
    split at hint
    next => cases hint
    next hplain =>
      simp only [Bool.or_eq_true, not_or, Bool.not_eq_true, Option.isSome_eq_false_iff,
        Option.isNone_iff_eq_none] at hplain
      exact hplain

/-! ## Integers -/

theorem spanDigits_digits (n : Nat) : spanDigits (digits n) = (digits n, []) := by
  have hall : ∀ c ∈ digits n, c.isDigit := fun c hc => isDigit_of_mem_digits hc
  rw [spanDigits, List.takeWhile_eq_self_iff.mpr hall, List.dropWhile_eq_nil_iff.mpr hall]

theorem unsigned?_digits (negative : Bool) (n : Nat) :
    unsigned? negative (digits n) = some ⟨negative, digits n, none, none⟩ := by
  have htail : tailOf? negative (digits n) [] = some ⟨negative, digits n, none, none⟩ := rfl
  rw [unsigned?, spanDigits_digits]
  dsimp only
  split
  next hdigits => exact absurd hdigits (digits_ne_nil n)
  next hdigits => cases eq_nil_of_digits_eq_zero_cons hdigits
  next => exact htail

theorem ofChars?_integer (i : Int) :
    ofChars? (integer i) = some ⟨decide (i < 0), digits i.natAbs, none, none⟩ := by
  by_cases hneg : i < 0
  · simp only [integer, hneg, if_true, ofChars?, unsigned?_digits, decide_true]
  · have hfirst : ∀ cs, digits i.natAbs ≠ '-' :: cs := by
      intro cs hcs
      have hdigit : '-'.isDigit := isDigit_of_mem_digits (n := i.natAbs) (by simp [hcs])
      exact absurd hdigit (by decide)
    rw [integer, if_neg hneg, ofChars?]
    · simp only [hneg, decide_false, unsigned?_digits]
    · exact hfirst

/-- The decimal text of an integer is read as that integer. -/
theorem read?_integer {i : Int} (hfits : -2 ^ 63 ≤ i ∧ i < 2 ^ 64) :
    read? (integer i) = some (.int i hfits) := by
  have hvalue : (if decide (i < 0) then -(i.natAbs : Int) else (i.natAbs : Int)) = i := by
    by_cases hneg : i < 0
    · simp only [hneg, decide_true, if_true]
      omega
    · simp only [hneg, decide_false, Bool.false_eq_true, if_false]
      omega
  have hzero : (decide (i < 0) && decide (i.natAbs = 0)) = false := by
    simp only [Bool.and_eq_false_iff, decide_eq_false_iff_not]
    omega
  have hint : int? ⟨decide (i < 0), digits i.natAbs, none, none⟩ = some (.int i hfits) := by
    simp only [int?, Option.isSome_none, Bool.or_self, natValue_digits, hzero, hvalue,
      Bool.false_eq_true, if_false, dif_pos hfits]
  simp [read?, ofChars?_integer, number?, hint]

end Numeral

theorem Number.steady_int {i : Int} (hfits : -2 ^ 63 ≤ i ∧ i < 2 ^ 64) :
    (Number.int i hfits).Steady :=
  Numeral.read?_integer hfits

theorem Number.IsInteger.steady {n : Number} (hn : n.IsInteger) : n.Steady := by
  cases n with
  | int i hfits => exact steady_int hfits
  | real x => exact hn.elim

/-- Some doubles are read back from their texts, and others are not. -/
example : (∀ n ∈ Numeral.read? ['0', '.', '5'], n.Steady) ∧
    ∀ n ∈ Numeral.read? ['5', 'e', '1', '1', '7'], ¬n.Steady := by decide +kernel

end Json

/-! ## Doubles -/

namespace Binary64

open Json

variable {layout : Layout} {ds : List Char} {x : Binary64}

theorem isNumeral_of_mem_write (layout : Layout) (hds : ∀ c ∈ ds, c.isDigit) (e : Int) :
    ∀ c ∈ layout.write ds e, Scan.isNumeral c := by
  have hdigits : ∀ {cs : List Char}, (∀ c ∈ cs, c.isDigit) → ∀ c ∈ cs, Scan.isNumeral c :=
    fun hcs c hc => isNumeral_of_isDigit (hcs c hc)
  have hzeros : ∀ n, ∀ c ∈ List.replicate n '0', Scan.isNumeral c := by
    intro n c hc
    rw [List.eq_of_mem_replicate hc]
    decide
  unfold Layout.write
  split
  next =>
    split
    next =>
      simp only [List.forall_mem_append, List.forall_mem_cons]
      exact ⟨⟨by decide, by decide, hzeros _⟩, hdigits hds⟩
    next =>
      simp only [List.forall_mem_append, List.forall_mem_cons]
      refine ⟨⟨fun c hc => hdigits hds c (List.mem_of_mem_take hc), hzeros _⟩, by decide, ?_⟩
      split
      next => simpa using isNumeral_of_isDigit (c := '0') (by decide)
      next => exact fun c hc => hdigits hds c (List.mem_of_mem_drop hc)
  next =>
    have hexponent : ∀ c ∈ Text.digits e.natAbs, Scan.isNumeral c :=
      hdigits fun c hc => Text.isDigit_of_mem_digits hc
    simp only [List.forall_mem_append, List.forall_mem_cons]
    refine ⟨?_, by decide, ?_, hexponent⟩
    · split
      next => exact hdigits hds
      next =>
        obtain ⟨hfirst, hrest⟩ := List.forall_mem_cons.mp hds
        simp only [List.forall_mem_cons]
        exact ⟨isNumeral_of_isDigit hfirst, by decide, hdigits hrest⟩
      next => simp
    · split <;> decide

theorem mark_mem_write (layout : Layout) (ds : List Char) (e : Int) :
    ∃ c ∈ layout.write ds e, c = '.' ∨ c = 'e' := by
  unfold Layout.write
  split
  next =>
    split
    next => exact ⟨'.', by simp, .inl rfl⟩
    next => exact ⟨'.', by simp, .inl rfl⟩
  next => exact ⟨'e', by simp, .inr rfl⟩

theorem mem_of_mem_dropZeros {c : Char} (hc : c ∈ dropZeros ds) : c ∈ ds := by
  have hsuffix := List.dropWhile_suffix (· == '0') (l := ds.reverse)
  exact List.mem_reverse.mp (hsuffix.subset (List.mem_reverse.mp hc))

theorem isNumeral_of_mem_text {c : Char} (hc : c ∈ text layout x) : Scan.isNumeral c := by
  have hsign : ∀ c ∈ (if x.negative then ['-'] else []), Scan.isNumeral c := by
    split
    · simpa using (by decide : Scan.isNumeral '-')
    · simp
  by_cases hzero : x.isZero
  · have hdigits : ∀ c ∈ ['0', '.', '0'], Scan.isNumeral c := by simp [Scan.isNumeral]
    simp only [text, hzero, if_true, List.mem_append] at hc
    exact hc.elim (hsign c) (hdigits c)
  · have hds : ∀ d ∈ dropZeros (Text.digits (shortest x.rank).coefficient), d.isDigit :=
      fun d hd => Text.isDigit_of_mem_digits (mem_of_mem_dropZeros hd)
    have hdigits := isNumeral_of_mem_write layout hds ((shortest x.rank).power +
      ((Text.digits (shortest x.rank).coefficient).length - 1 : Nat))
    simp only [text, hzero, Bool.false_eq_true, if_false, List.mem_append] at hc
    exact hc.elim (hsign c) (hdigits c)

/-- The text of a double has a point or an exponent. -/
theorem mark_mem_text (layout : Layout) (x : Binary64) :
    ∃ c ∈ text layout x, c = '.' ∨ c = 'e' := by
  by_cases hzero : x.isZero
  · refine ⟨'.', ?_, .inl rfl⟩
    simp only [text, hzero, if_true]
    exact List.mem_append_right _ (by simp)
  · obtain ⟨c, hc, hmark⟩ := mark_mem_write layout
      (dropZeros (Text.digits (shortest x.rank).coefficient))
      ((shortest x.rank).power +
        ((Text.digits (shortest x.rank).coefficient).length - 1 : Nat))
    refine ⟨c, ?_, hmark⟩
    simp only [text, hzero, Bool.false_eq_true, if_false]
    exact List.mem_append_right _ hc

end Binary64

namespace Json

/-! ## Texts of numbers -/

theorem isNumeral_of_mem_numberText {n : Number} {c : Char} (hc : c ∈ numberText n) :
    Scan.isNumeral c := by
  cases n with
  | int i hfits => exact (Numeral.isNumeral_of_ofChars? (Numeral.ofChars?_integer i)).2.1 c hc
  | real x => exact Binary64.isNumeral_of_mem_text hc

theorem numberText_ne_nil (n : Number) : numberText n ≠ [] := by
  cases n with
  | int i hfits =>
    obtain ⟨-, -, c, rest, hcs, -⟩ := Numeral.isNumeral_of_ofChars? (Numeral.ofChars?_integer i)
    rw [numberText, hcs]
    exact List.cons_ne_nil _ _
  | real x =>
    obtain ⟨c, hc, -⟩ := Binary64.mark_mem_text realLayout x
    exact List.ne_nil_of_mem hc

/-- Only the text of an integer is read as that integer. -/
theorem eq_int_of_read?_numberText {n : Number} {i : Int} {hfits : -2 ^ 63 ≤ i ∧ i < 2 ^ 64}
    (h : Numeral.read? (numberText n) = some (.int i hfits)) : n = .int i hfits := by
  cases n with
  | int j hfits' => exact Option.some.inj ((Numeral.read?_integer hfits').symm.trans h)
  | real x =>
    obtain ⟨m, hm, hnumber⟩ := Option.bind_eq_some_iff.mp h
    obtain ⟨hfraction, hexponent⟩ := Numeral.plain_of_number?_eq_int hnumber
    have hplain := (Numeral.isNumeral_of_ofChars? hm).1 hfraction hexponent
    obtain ⟨c, hc, rfl | rfl⟩ := Binary64.mark_mem_text realLayout x
    · exact absurd (hplain '.' hc) (by decide)
    · exact absurd (hplain 'e' hc) (by decide)

end Json

end DatedLedger

import DatedLedger.Calendar.Text
import DatedLedger.Proofs.Text.Decimal

/-!
# Dates read back

Written digits are read as the number they stand for, whatever zeros were put in
front of them, as long as no further digit follows.  Year, month and day of a
written date are therefore read one after another, and the text of a date stands
for that date alone.
-/

namespace DatedLedger

namespace Date

open Text

theorem isBlank_hyphen : isBlank '-' = false := by decide

theorem isBlank_plus : isBlank '+' = false := by decide

/-- The text that follows a number does not go on with a digit. -/
def EndsNumber (rest : List Char) : Prop :=
  ∀ c ∈ rest.head?, c.isDigit = false

theorem endsNumber_nil : EndsNumber [] := by
  simp [EndsNumber]

theorem endsNumber_hyphen (rest : List Char) : EndsNumber ('-' :: rest) := by
  simp [EndsNumber]

theorem takeWhile_take_append {ds rest : List Char} {width : Nat}
    (hds : ∀ c ∈ ds, c.isDigit) (hlen : ds.length ≤ width) (hrest : EndsNumber rest) :
    ((ds ++ rest).take width).takeWhile Char.isDigit = ds := by
  rw [List.take_append, List.take_of_length_le hlen]
  rw [List.takeWhile_append_of_pos hds]
  cases hk : width - ds.length with
  | zero => simp
  | succ k =>
    cases rest with
    | nil => simp
    | cons c rest =>
      have hc : c.isDigit = false := hrest c rfl
      simp [hc]

/-- A written number is read up to its end. -/
theorem readNumber_padded_append {width digits n : Nat} {rest : List Char}
    (hlen : (padded digits n).length ≤ width) (hrest : EndsNumber rest) :
    readNumber width (padded digits n ++ rest) = .ok (n, rest) := by
  have htake := takeWhile_take_append (fun c hc => isDigit_of_mem_padded digits n hc) hlen hrest
  obtain ⟨c, cs, hcs⟩ := List.exists_cons_of_ne_nil (padded_ne_nil digits n)
  have hc : c.isDigit := isDigit_of_mem_padded digits n (by simp [hcs])
  have hfirst : padded digits n ++ rest = c :: (cs ++ rest) := by
    rw [hcs, List.cons_append]
  rw [hfirst] at htake ⊢
  simp only [readNumber, hc, if_true, htake, natValue_padded]
  rw [← hfirst, List.drop_left]

theorem skipBlanks_padded_append (width n : Nat) (rest : List Char) :
    skipBlanks (padded width n ++ rest) = padded width n ++ rest := by
  obtain ⟨c, cs, hcs⟩ := List.exists_cons_of_ne_nil (padded_ne_nil width n)
  have hc : c.isDigit := isDigit_of_mem_padded width n (by simp [hcs])
  rw [hcs, List.cons_append]
  exact skipBlanks_cons (isBlank_eq_false_of_isDigit hc) _

theorem checkRange_eq_ok {low high value : Int} (hlow : low ≤ value) (hhigh : value ≤ high) :
    checkRange low high value = .ok () :=
  if_pos ⟨hlow, hhigh⟩

theorem readPart_padded_append (high : Int) {n : Nat} {rest : List Char}
    (hpos : 1 ≤ n) (hhigh : n ≤ high) (hn : n < 100) (hrest : EndsNumber rest) :
    readPart high (padded 2 n ++ rest) = .ok (n, rest) := by
  have hlen : (padded 2 n).length ≤ 2 := Nat.le_of_eq (length_padded (by decide) hn)
  rw [readPart, skipBlanks_padded_append, readNumber_padded_append hlen hrest]
  have hrange : checkRange 1 high n = .ok () := checkRange_eq_ok (by omega) hhigh
  simp only [bind, Except.bind, hrange]
  rfl

theorem checkRange_year {year : Int} (hfirst : firstYear ≤ year) (hlast : year ≤ lastYear) :
    checkRange (-2 ^ 31) (2 ^ 31 - 1) year = .ok () := by
  rw [firstYear] at hfirst
  rw [lastYear] at hlast
  exact checkRange_eq_ok (by omega) (by omega)

theorem readYear_unsigned {n : Nat} {rest : List Char} (hn : n ≤ 9999)
    (hrest : EndsNumber rest) :
    readYear (padded 4 n ++ rest) = .ok ((n : Int), rest) := by
  have hlen : (padded 4 n).length ≤ yearWidth := Nat.le_of_eq (length_padded (by decide) (by omega))
  have hread := readNumber_padded_append hlen hrest
  have hrange : checkRange (-2 ^ 31) (2 ^ 31 - 1) (n : Int) = .ok () :=
    checkRange_eq_ok (by omega) (by omega)
  obtain ⟨c, cs, hcs⟩ := List.exists_cons_of_ne_nil (padded_ne_nil 4 n)
  have hc : c.isDigit := isDigit_of_mem_padded 4 n (by simp [hcs])
  have hhyphen : c ≠ '-' := by
    rintro rfl
    exact absurd hc (by decide)
  have hplus : c ≠ '+' := by
    rintro rfl
    exact absurd hc (by decide)
  rw [readYear, skipBlanks_padded_append]
  rw [hcs, List.cons_append] at hread ⊢
  split
  next h => simp_all
  next h => simp_all
  next h =>
    rw [hread]
    simp only [bind, Except.bind, pure, Except.pure, hrange]

theorem readYear_negative {n : Nat} {rest : List Char} (hfirst : firstYear ≤ -(n : Int))
    (hrest : EndsNumber rest) :
    readYear ('-' :: (padded 4 n ++ rest)) = .ok (-(n : Int), rest) := by
  have hlen : (padded 4 n).length ≤ (padded 4 n ++ rest).length := by simp
  have hread := readNumber_padded_append hlen hrest
  have hrange := checkRange_year hfirst (by rw [lastYear]; omega)
  rw [readYear, skipBlanks_cons isBlank_hyphen]
  simp only [bind, Except.bind, pure, Except.pure, hread, hrange]

theorem readYear_positive {n : Nat} {rest : List Char} (hlast : (n : Int) ≤ lastYear)
    (hrest : EndsNumber rest) :
    readYear ('+' :: (padded 4 n ++ rest)) = .ok ((n : Int), rest) := by
  have hlen : (padded 4 n).length ≤ (padded 4 n ++ rest).length := by simp
  have hread := readNumber_padded_append hlen hrest
  have hrange := checkRange_year (by rw [firstYear]; omega) hlast
  rw [readYear, skipBlanks_cons isBlank_plus]
  simp only [bind, Except.bind, pure, Except.pure, hread, hrange]

theorem readYear_yearText_append {year : Int} {rest : List Char}
    (hfirst : firstYear ≤ year) (hlast : year ≤ lastYear) (hrest : EndsNumber rest) :
    readYear (yearText year ++ rest) = .ok (year, rest) := by
  rw [yearText]
  split
  next hfour =>
    have hyear : (year.toNat : Int) = year := by omega
    rw [readYear_unsigned (by omega) hrest, hyear]
  next hfour =>
    by_cases hneg : year < 0
    · have hyear : -(year.natAbs : Int) = year := by omega
      rw [if_pos hneg, List.cons_append, readYear_negative (by rwa [hyear]) hrest, hyear]
    · have hyear : (year.natAbs : Int) = year := by omega
      rw [if_neg hneg, List.cons_append, readYear_positive (by rwa [hyear]) hrest, hyear]

/-- A written date is read as that date. -/
theorem parseChars_chars (d : Date) : parseChars d.chars = .ok d := by
  have hday := d.valid.day_le
  have hdays := daysIn_le d.year d.month
  have hmonth := d.valid.month_le
  have hyear := readYear_yearText_append d.valid.firstYear_le d.valid.le_lastYear
    (endsNumber_hyphen (padded 2 d.month ++ '-' :: padded 2 d.day))
  have hmonth := readPart_padded_append 12 d.valid.one_le_month (by omega) (by omega)
    (endsNumber_hyphen (padded 2 d.day))
  have hday := readPart_padded_append 31 d.valid.one_le_day (by omega) (by omega)
    endsNumber_nil
  rw [List.append_nil] at hday
  have hof : of? d.year d.month d.day = some d := dif_pos d.valid
  simp only [parseChars, chars, bind, Except.bind, hyear, hmonth, hday, hof, readHyphen, if_true,
    List.isEmpty_nil]

/-- The text of a date reads back as the date. -/
theorem parse_text (d : Date) : parse d.text = .ok d := by
  rw [parse, text, String.toList_ofList]
  exact parseChars_chars d

/-- Different dates have different texts. -/
theorem text_inj {a b : Date} : a.text = b.text ↔ a = b := by
  constructor
  · intro h
    have hb := parse_text b
    rw [← h, parse_text a] at hb
    exact Except.ok.inj hb
  · intro h
    rw [h]

/-- Blanks in front of a date are skipped. -/
theorem parseChars_append {blanks : List Char} (h : ∀ c ∈ blanks, isBlank c) (cs : List Char) :
    parseChars (blanks ++ cs) = parseChars cs := by
  have hyear : readYear (blanks ++ cs) = readYear cs := by
    rw [readYear, skipBlanks_append h, readYear]
  rw [parseChars, hyear, parseChars]

theorem parse_append_text {blanks : List Char} (h : ∀ c ∈ blanks, isBlank c) (d : Date) :
    parse (String.ofList blanks ++ d.text) = .ok d := by
  rw [parse, text, ← String.ofList_append, String.toList_ofList, parseChars_append h]
  exact parseChars_chars d

/-- A text that reads as a date need not be the text of one. -/
theorem append_text_ne_text {blanks : List Char} (h : ∀ c ∈ blanks, isBlank c)
    (hne : blanks ≠ []) (d e : Date) : String.ofList blanks ++ d.text ≠ e.text := by
  intro htext
  have hread := parse_append_text h d
  rw [htext, parse_text] at hread
  rw [Except.ok.inj hread, text, ← String.ofList_append, String.ofList_inj] at htext
  exact hne (List.append_left_eq_self.mp htext)

end Date

end DatedLedger

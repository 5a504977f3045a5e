import DatedLedger.Proofs.Calendar.ReadBack
import DatedLedger.Proofs.Json.ReadBack
import DatedLedger.Timeline.Digest

/-!
# Encodings of timelines

No field in front of a bar has a bar in it, and no field has a line feed.  So a line
determines its fields, and a text of lines determines the lines.  Two timelines have one
encoding exactly when they agree place by place in all that is written of a version.  As
no other payload has the text of an integral one, the encoding of a timeline with
integral attributes is that of no other timeline of the entity.  Digests are equal where
the hashes of the encodings are.
-/

namespace DatedLedger

theorem append_cons_inj {α : Type} {c : α} {xs ys us vs : List α} (hxs : c ∉ xs) (hys : c ∉ ys)
    (h : xs ++ c :: us = ys ++ c :: vs) : xs = ys ∧ us = vs := by
  induction xs generalizing ys with
  | nil =>
    cases ys with
    | nil => exact ⟨rfl, (List.cons.inj h).2⟩
    | cons y ys => exact absurd (List.cons.inj h).1 (List.ne_of_not_mem_cons hys)
  | cons x xs ih =>
    cases ys with
    | nil => exact absurd (List.cons.inj h).1.symm (List.ne_of_not_mem_cons hxs)
    | cons y ys =>
      obtain ⟨rfl, htail⟩ := List.cons.inj h
      obtain ⟨rfl, rfl⟩ := ih (List.not_mem_of_not_mem_cons hxs)
        (List.not_mem_of_not_mem_cons hys) htail
      exact ⟨rfl, rfl⟩

/-! ## Characters of fields -/

namespace Text

theorem notMem_digits {n : Nat} {c : Char} (hc : c.isDigit = false) : c ∉ digits n := by
  intro hmem
  rw [isDigit_of_mem_digits hmem] at hc
  cases hc

theorem digits_inj {m n : Nat} : digits m = digits n ↔ m = n := by
  constructor
  · intro h
    rw [← natValue_digits m, h, natValue_digits]
  · intro h
    rw [h]

end Text

namespace Date

theorem isDigit_or_sign_of_mem_chars {d : Date} {c : Char} (hc : c ∈ d.chars) :
    c.isDigit ∨ c = '-' ∨ c = '+' := by
  have hpadded : ∀ {width n : Nat}, c ∈ Text.padded width n → c.isDigit :=
    fun hmem => Text.isDigit_of_mem_padded _ _ hmem
  rw [chars, yearText] at hc
  simp only [List.mem_append, List.mem_cons] at hc
  rcases hc with hyear | rfl | hmonth | rfl | hday
  · split at hyear
    next => exact .inl (hpadded hyear)
    next =>
      rcases List.mem_cons.mp hyear with rfl | hyear
      · split
        · exact .inr (.inl rfl)
        · exact .inr (.inr rfl)
      · exact .inl (hpadded hyear)
  · exact .inr (.inl rfl)
  · exact .inl (hpadded hmonth)
  · exact .inr (.inl rfl)
  · exact .inl (hpadded hday)

theorem notMem_chars {d : Date} {c : Char} (hc : c.isDigit = false) (hminus : c ≠ '-')
    (hplus : c ≠ '+') : c ∉ d.chars := by
  intro hmem
  rcases isDigit_or_sign_of_mem_chars hmem with hdigit | heq | heq
  · rw [hdigit] at hc
    cases hc
  · exact hminus heq
  · exact hplus heq

theorem bar_notMem_chars (d : Date) : '|' ∉ d.chars :=
  notMem_chars (by decide) (by decide) (by decide)

theorem lineFeed_notMem_chars (d : Date) : '\n' ∉ d.chars :=
  notMem_chars (by decide) (by decide) (by decide)

theorem chars_inj {a b : Date} : a.chars = b.chars ↔ a = b := by
  rw [← text_inj, text, text, String.ofList_inj]

theorem chars_ne_nil (d : Date) : d.chars ≠ [] := by
  simp [chars]

end Date

namespace Json

theorem lineFeed_notMem_escape (c : Char) : '\n' ∉ escape c := by
  rcases Reader.escape_cases c with ⟨d, -, hd, hc⟩ | ⟨hcontrol, hc⟩ | ⟨-, -, hcontrol, hc⟩
  · have hne : d ≠ '\n' := by
      rintro rfl
      cases hd
    simp [hc, hne.symm]
  · have hdigit : ∀ d < 16, hexDigit d ≠ '\n' := by decide
    have hhigh := hdigit (c.toNat / 16) (by omega)
    have hlow := hdigit (c.toNat % 16) (by omega)
    simp [hc, hhigh.symm, hlow.symm]
  · rw [hc, List.mem_singleton]
    rintro rfl
    exact hcontrol (by decide)

theorem lineFeed_notMem_stringText (s : String) : '\n' ∉ stringText s := by
  rw [stringText, List.mem_cons, List.mem_append, List.mem_flatMap, List.mem_singleton]
  rintro (hquote | ⟨c, -, hc⟩ | hquote)
  · cases hquote
  · exact lineFeed_notMem_escape c hc
  · cases hquote

theorem lineFeed_notMem_numberText (n : Number) : '\n' ∉ numberText n := by
  intro hmem
  exact absurd (isNumeral_of_mem_numberText hmem) (by decide)

mutual

/-- Canonical text is a single line. -/
theorem lineFeed_notMem_valueText (v : Value) : '\n' ∉ valueText v := by
  match v with
  | .null => decide
  | .bool true => decide
  | .bool false => decide
  | .num n => exact lineFeed_notMem_numberText n
  | .str s => exact lineFeed_notMem_stringText s
  | .arr items =>
    have hitems := lineFeed_notMem_itemsText items
    simp [valueText, hitems]
  | .obj members =>
    have hmembers := lineFeed_notMem_membersText members
    simp [valueText, hmembers]

theorem lineFeed_notMem_itemsText (items : List Value) : '\n' ∉ itemsText items := by
  match items with
  | [] => exact List.not_mem_nil
  | [v] => exact lineFeed_notMem_valueText v
  | v :: w :: rest =>
    have hv := lineFeed_notMem_valueText v
    have hrest := lineFeed_notMem_itemsText (w :: rest)
    simp [Reader.itemsText_cons_cons, hv, hrest]

theorem lineFeed_notMem_membersText (members : Members) : '\n' ∉ membersText members := by
  match members with
  | [] => exact List.not_mem_nil
  | [(name, v)] =>
    have hname := lineFeed_notMem_stringText name
    have hv := lineFeed_notMem_valueText v
    simp [membersText, hname, hv]
  | (name, v) :: m :: rest =>
    have hname := lineFeed_notMem_stringText name
    have hv := lineFeed_notMem_valueText v
    have hrest := lineFeed_notMem_membersText (m :: rest)
    simp [Reader.membersText_cons_cons, hname, hv, hrest]

end

end Json

/-! ## Lines -/

namespace Version

variable {v w : Version}

/-- The last day's field of a line. -/
def endChars (v : Version) : List Char :=
  match v.validTo with
  | some date => date.chars
  | none => []

theorem endChars_inj : v.endChars = w.endChars ↔ v.validTo = w.validTo := by
  rw [endChars, endChars]
  cases v.validTo with
  | none =>
    cases w.validTo with
    | none => simp
    | some date => simp [(date.chars_ne_nil).symm]
  | some date =>
    cases w.validTo with
    | none => simp [date.chars_ne_nil]
    | some last => simp [Date.chars_inj]

theorem line_eq (v : Version) : v.line = Text.digits v.seqNo ++ '|' :: (v.validFrom.chars ++ '|' ::
    (v.endChars ++ '|' :: (Json.valueText (.obj v.attributes.members) ++ ['\n']))) := rfl

theorem notMem_endChars (v : Version) {c : Char} (hc : ∀ d : Date, c ∉ d.chars) :
    c ∉ v.endChars := by
  rw [endChars]
  split
  · exact hc _
  · exact List.not_mem_nil

/-- A line stands for its number, its bounds and the text of its attributes. -/
theorem line_inj : v.line = w.line ↔ v.seqNo = w.seqNo ∧ v.validFrom = w.validFrom ∧
    v.validTo = w.validTo ∧ v.attributes.text = w.attributes.text := by
  have hdigits : ∀ n, '|' ∉ Text.digits n := fun n => Text.notMem_digits (by decide)
  constructor
  · intro h
    rw [line_eq, line_eq] at h
    obtain ⟨hseqNo, h⟩ := append_cons_inj (hdigits _) (hdigits _) h
    obtain ⟨hfrom, h⟩ := append_cons_inj (Date.bar_notMem_chars _) (Date.bar_notMem_chars _) h
    obtain ⟨hto, h⟩ := append_cons_inj (v.notMem_endChars Date.bar_notMem_chars)
      (w.notMem_endChars Date.bar_notMem_chars) h
    exact ⟨Text.digits_inj.mp hseqNo, Date.chars_inj.mp hfrom, endChars_inj.mp hto,
      congrArg String.ofList (List.append_cancel_right h)⟩
  · rintro ⟨hseqNo, hfrom, hto, hattributes⟩
    have hchars := String.ofList_inj.mp hattributes
    rw [line_eq, line_eq, hseqNo, hfrom, endChars_inj.mpr hto, hchars]

theorem exists_line_eq_append (v : Version) : ∃ body, '\n' ∉ body ∧ v.line = body ++ ['\n'] := by
  refine ⟨Text.digits v.seqNo ++ '|' :: (v.validFrom.chars ++ '|' ::
    (v.endChars ++ '|' :: Json.valueText (.obj v.attributes.members))), ?_, by simp [line_eq]⟩
  have hseqNo : '\n' ∉ Text.digits v.seqNo := Text.notMem_digits (by decide)
  have hfrom := Date.lineFeed_notMem_chars v.validFrom
  have hto := v.notMem_endChars Date.lineFeed_notMem_chars
  have hattributes := Json.lineFeed_notMem_valueText (.obj v.attributes.members)
  simp [hseqNo, hfrom, hto, hattributes]

theorem line_append_inj {us vs : List Char} (h : v.line ++ us = w.line ++ vs) :
    v.line = w.line ∧ us = vs := by
  obtain ⟨body, hbody, hv⟩ := v.exists_line_eq_append
  obtain ⟨body', hbody', hw⟩ := w.exists_line_eq_append
  rw [hv, hw, List.append_assoc, List.append_assoc] at h
  obtain ⟨rfl, rfl⟩ := append_cons_inj hbody hbody' h
  exact ⟨hv.trans hw.symm, rfl⟩

theorem line_ne_nil (v : Version) : v.line ≠ [] := by
  simp [line_eq]

end Version

/-! ## Hexadecimal digits -/

theorem Json.hexDigit_inj {d e : Nat} (hd : d < 16) (he : e < 16) :
    hexDigit d = hexDigit e ↔ d = e := by
  have hall : ∀ d < 16, ∀ e < 16, hexDigit d = hexDigit e → d = e := by decide
  exact ⟨hall d hd e he, congrArg hexDigit⟩

/-- Numbers with the same hexadecimal digits at their lowest places agree below the next place. -/
theorem mod_pow_eq_of_digits_eq {m n k : Nat} (h : ∀ j < k, m / 16 ^ j % 16 = n / 16 ^ j % 16) :
    m % 16 ^ k = n % 16 ^ k := by
  induction k with
  | zero => rw [Nat.pow_zero, Nat.mod_one, Nat.mod_one]
  | succ k ih =>
    rw [Nat.mod_pow_succ, Nat.mod_pow_succ, ih fun j hj => h j (Nat.lt_succ_of_lt hj),
      h k (Nat.lt_succ_self k)]

theorem hexDigits_inj {m n : UInt64} : hexDigits m = hexDigits n ↔ m = n := by
  refine ⟨?_, congrArg hexDigits⟩
  intro h
  have hdigits : ∀ j < 16, m.toNat / 16 ^ j % 16 = n.toNat / 16 ^ j % 16 := by
    intro j hj
    have hplace := List.map_inj_left.mp h (15 - j) (List.mem_range.mpr (by omega))
    have hback : 15 - (15 - j) = j := by omega
    rw [hback] at hplace
    exact (Json.hexDigit_inj (Nat.mod_lt _ (by decide)) (Nat.mod_lt _ (by decide))).mp hplace
  have hwords := mod_pow_eq_of_digits_eq hdigits
  rw [Nat.mod_eq_of_lt m.toNat_lt, Nat.mod_eq_of_lt n.toNat_lt] at hwords
  exact UInt64.toNat_inj.mp hwords

/-! ## Texts of lines -/

namespace Timeline

variable {t u : Timeline}

/-- Timelines have one digest exactly when the bytes of their encodings have one hash. -/
theorem digest_eq_iff : t.digest = u.digest ↔
    XXH3.hash t.encoding.toUTF8.toList = XXH3.hash u.encoding.toUTF8.toList := by
  rw [digest, digest, String.ofList_inj, hexDigits_inj]

/-- The hash does not take the encodings of the two timelines for one another. -/
def Distinguished (t u : Timeline) : Prop :=
  XXH3.hash t.encoding.toUTF8.toList = XXH3.hash u.encoding.toUTF8.toList →
    t.encoding = u.encoding

/-- The encoding of a timeline determines its lines. -/
theorem encoding_inj : t.encoding = u.encoding ↔ t.map Version.line = u.map Version.line := by
  rw [encoding, encoding, String.ofList_inj, List.flatMap_def, List.flatMap_def]
  refine ⟨?_, congrArg List.flatten⟩
  intro h
  induction t generalizing u with
  | nil =>
    cases u with
    | nil => rfl
    | cons w u => exact absurd (List.append_eq_nil_iff.mp h.symm).1 w.line_ne_nil
  | cons v t ih =>
    cases u with
    | nil => exact absurd (List.append_eq_nil_iff.mp h).1 v.line_ne_nil
    | cons w u =>
      obtain ⟨hline, hrest⟩ := Version.line_append_inj h
      rw [List.map_cons, List.map_cons, hline, ih hrest]

/-- No other timeline of the entity has the encoding of one with integral attributes. -/
theorem eq_of_encoding_eq {key : EntityKey} (h : u.encoding = t.encoding)
    (hkeys : ∀ v ∈ t, v.key = key) (hkeys' : ∀ w ∈ u, w.key = key)
    (hintegral : ∀ v ∈ t, v.attributes.Integral) : u = t := by
  rw [encoding_inj] at h
  induction t generalizing u with
  | nil => exact List.map_eq_nil_iff.mp h
  | cons v t ih =>
    cases u with
    | nil => cases h
    | cons w u =>
      obtain ⟨hkey, hkeys⟩ := List.forall_mem_cons.mp hkeys
      obtain ⟨hkey', hkeys'⟩ := List.forall_mem_cons.mp hkeys'
      obtain ⟨hv, hintegral⟩ := List.forall_mem_cons.mp hintegral
      obtain ⟨hline, hrest⟩ := List.cons.inj h
      obtain ⟨hseqNo, hfrom, hto, htext⟩ := Version.line_inj.mp hline
      have hattributes := Payload.eq_of_text_eq hv htext
      have hfirst : w = v := by
        cases v
        cases w
        simp only at hseqNo hfrom hto hattributes hkey hkey'
        rw [hseqNo, hfrom, hto, hattributes, hkey, hkey']
      rw [hfirst, ih hrest hkeys hkeys' hintegral]

/-- The timelines have equally many versions, and the versions in one place agree in number, in
bounds and in the text of their attributes. -/
def Agrees (t u : Timeline) : Prop :=
  t.length = u.length ∧ ∀ (i : Nat) (ht : i < t.length) (hu : i < u.length),
    t[i].seqNo = u[i].seqNo ∧ t[i].validFrom = u[i].validFrom ∧ t[i].validTo = u[i].validTo ∧
      t[i].attributes.text = u[i].attributes.text

theorem map_line_eq_iff : t.map Version.line = u.map Version.line ↔ t.Agrees u := by
  rw [List.ext_getElem_iff]
  simp only [List.length_map, List.getElem_map, Version.line_inj, Agrees]

/-- The encodings of any two timelines are equal exactly when the timelines agree.  Hence digests
are equal only of timelines that agree or that the hash does not tell apart. -/
theorem encoding_eq_iff_agrees (t u : Timeline) :
    (t.encoding = u.encoding ↔ t.Agrees u) ∧
      (t.digest = u.digest ↔ t.Agrees u ∨ ¬t.Distinguished u) := by
  have hencoding : t.encoding = u.encoding ↔ t.Agrees u := encoding_inj.trans map_line_eq_iff
  refine ⟨hencoding, ?_⟩
  rw [← hencoding, digest_eq_iff, Distinguished, Classical.not_imp]
  constructor
  · intro hhash
    by_cases hsame : t.encoding = u.encoding
    · exact .inl hsame
    · exact .inr ⟨hhash, hsame⟩
  · rintro (hsame | ⟨hhash, -⟩)
    · rw [hsame]
    · exact hhash

end Timeline

end DatedLedger

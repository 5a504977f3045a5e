import DatedLedger.Proofs.Run.AsOf

/-!
# Texts in the store

Payloads and dates stand in the store as texts.  In every store that a run reaches,
the column of a payload holds the canonical text of a payload and that of a date the
text of a date.  The canonical text of an integral value reads back as that value, so
integral payloads have equal texts only when they are equal and come back from the
store as they were.  The text of a date reads back as that date, so comparing the texts
of a stored and another date comes to comparing the dates.
-/

namespace DatedLedger

theorem Payload.checkDepth_eq_ok_iff {v : Json.Value} :
    checkDepth v = .ok () ↔ v.depth ≤ maxDepth := by
  unfold checkDepth
  split
  next hdepth => simp [hdepth]
  next hdepth => simp [hdepth]

theorem Payload.Integral.readPayload_text {p : Payload} (hp : p.Integral) :
    readPayload p.text = .ok p :=
  readPayload_eq_ok_iff.mpr (parse_text hp.steady)

theorem Payload.eq_iff_get?_eq {p q : Payload} : p = q ↔ ∀ name, p.get? name = q.get? name := by
  constructor
  · intro h name
    rw [h]
  · intro h
    have hmembers := Json.Members.eq_of_get?_eq p.sorted_members q.sorted_members h
    cases p
    cases q
    cases hmembers
    rfl

namespace Store

/-- The canonical text of an integral value that is no deeper than a payload reads back as that
value.  So an integral payload has the same content as no other object, writing and reading such a
value again changes nothing, and every integral payload that a run has stored is
read from its row as it was. -/
theorem canonical_faithful :
    (∀ v : Json.Value, v.Ordered → v.Integral → Payload.checkDepth v = .ok () →
      Json.read? (Json.canonical v) = some v) ∧
    (∀ p q : Payload, p.Integral →
      (p.same q ↔ p = q) ∧ (p = q ↔ ∀ name, p.get? name = q.get? name)) ∧
    (∀ (text : String) (v : Json.Value), Json.read? text = some v → v.Integral →
      Payload.checkDepth v = .ok () →
      (Json.read? (Json.canonical v)).map Json.canonical = some (Json.canonical v)) ∧
    ∀ rs : List Request,
      (∀ log, ∀ row ∈ (empty.after rs).rows log, ∃ p : Payload, row.payload = p.text ∧
        (p.Integral → readPayload row.payload = .ok p)) ∧
      ∀ row ∈ (empty.after rs).versions, ∃ p : Payload, row.attributes = p.text ∧
        (p.Integral → readPayload row.attributes = .ok p) := by
  have hread : ∀ v : Json.Value, v.Ordered → v.Integral → Payload.checkDepth v = .ok () →
      Json.read? (Json.canonical v) = some v := by
    intro v hordered hv hdepth
    exact Json.read?_canonical_of_integral hordered hv (Payload.checkDepth_eq_ok_iff.mp hdepth)
  refine ⟨hread, fun p q hp => ⟨hp.same_iff, Payload.eq_iff_get?_eq⟩, ?_, ?_⟩
  · intro text v htext hv hdepth
    rw [hread v (Json.ordered_of_read htext) hv hdepth, Option.map_some]
  · intro rs
    have hsound := sound_after rs
    constructor
    · intro log row hrow
      obtain ⟨e, rfl⟩ := hsound.written log row hrow
      exact ⟨e.payload, rfl, fun hp => hp.readPayload_text⟩
    · intro row hrow
      obtain ⟨-, -, -, -, v, -, rfl⟩ := hsound.exists_version_of_mem hrow
      exact ⟨v.attributes, rfl, fun hp => hp.readPayload_text⟩

end Store

namespace Sample

/-- A text with escapes, with the least and the greatest integer, and with one name twice. -/
def nestedText : String :=
  "\x7b \"b\": 1, \"a\\n\\\"\": \"\\ud83d\\ude00\\u0007\\/é\", " ++
    "\"b\": [-9223372036854775808, 18446744073709551615, \x7b\x7d, []]\x7d"

/-- The value that the text stands for. -/
def nested : Json.Value :=
  .obj [("a\n\"", .str "😀\x07/é"),
    ("b", .arr [.num (.int (-2 ^ 63) (by decide)), .num (.int (2 ^ 64 - 1) (by decide)),
      .obj [], .arr []])]

end Sample

namespace Store

theorem canonical_faithful_sample :
    Json.read? Sample.nestedText = some Sample.nested ∧
      Json.read? (Json.canonical Sample.nested) = some Sample.nested ∧
      ¬Sample.payload.same .empty ∧
      ∃ row ∈ (empty.after Sample.run).versions,
        readPayload row.attributes = .ok Sample.payload := by
  obtain ⟨hread, hsame, -, hstored⟩ := canonical_faithful
  have htext : Json.read? Sample.nestedText = some Sample.nested := rfl
  have hintegral : Sample.nested.Integral := by
    simp [Sample.nested, Json.Value.Integral, Json.IntegralMembers, Json.IntegralItems]
  have hpayload : Sample.payload.Integral := ⟨trivial, trivial⟩
  refine ⟨htext, hread _ (Json.ordered_of_read htext) hintegral rfl, ?_, ?_⟩
  · rw [(hsame _ .empty hpayload).1]
    exact fun h => absurd (congrArg Payload.members h) (List.cons_ne_nil _ _)
  · have hexists : ∃ row ∈ (empty.after Sample.run).versions,
        row.attributes = Sample.payload.text := by
      decide +kernel
    obtain ⟨row, hrow, hattributes⟩ := hexists
    obtain ⟨p, hp, hreads⟩ := (hstored Sample.run).2 row hrow
    have heq : p = Sample.payload := Payload.eq_of_text_eq hpayload (hp.symm.trans hattributes)
    rw [heq] at hreads
    exact ⟨row, hrow, hreads hpayload⟩

/-- The text of a date reads back as that date, so different dates have different texts, although
other texts are read as the date too.  The rows that a run has stored therefore hold dates that are
read from them, a look-up on a date selects the rows with that date, and a row that is added shares
its date with a stored one exactly when the texts of the dates are equal. -/
theorem dates_faithful :
    (∀ d : Date, Date.parse d.text = .ok d) ∧
    (∀ a b : Date, a.text = b.text ↔ a = b) ∧
    (∀ (blanks : List Char) (d : Date), (∀ c ∈ blanks, Text.isBlank c) →
      Date.parse (String.ofList blanks ++ d.text) = .ok d ∧
      (blanks ≠ [] → ∀ e : Date, String.ofList blanks ++ d.text ≠ e.text)) ∧
    ∀ (rs : List Request) (log : Log), ∀ row ∈ (empty.after rs).rows log,
      ∃ date, readDate row.date = .ok date ∧ row.date = date.text ∧
        (∀ key day, isOn key day row ↔ row.key = key ∧ date = day) ∧
        ∀ e : Entry, LogKey.date.shared e.row row ↔ e.key = row.key ∧ e.date = date := by
  refine ⟨Date.parse_text, fun a b => Date.text_inj, ?_, ?_⟩
  · intro blanks d hblanks
    exact ⟨Date.parse_append_text hblanks d, fun hne e => Date.append_text_ne_text hblanks hne d e⟩
  · intro rs log row hrow
    obtain ⟨e, rfl⟩ := (sound_after rs).written log row hrow
    refine ⟨e.date, readDate_text e.date, rfl, ?_, ?_⟩
    · intro key day
      rw [isOn_iff, ← Date.text_inj]
      rfl
    · intro e'
      simp only [LogKey.shared, Bool.and_eq_true, beq_iff_eq, Entry.row, Date.text_inj]

theorem dates_faithful_sample :
    Date.parse (String.ofList ['\u3000'] ++ Sample.created.date.text) =
        .ok Sample.created.date ∧
      Sample.created.date.text ≠ Sample.updated.date.text ∧
      ∃ row ∈ (empty.after Sample.run).rows .events,
        readDate row.date = .ok Sample.created.date ∧ ¬isOn Sample.key Sample.updated.date row := by
  obtain ⟨-, hinj, hblanks, hrows⟩ := dates_faithful
  have hother : Sample.created.date ≠ Sample.updated.date := by decide
  have hblank : Text.isBlank '\u3000' := by decide
  refine ⟨(hblanks _ _ (List.forall_mem_singleton.mpr hblank)).1,
    fun h => hother ((hinj _ _).mp h), ?_⟩
  have hexists : ∃ row ∈ (empty.after Sample.run).rows .events,
      row.date = Sample.created.date.text := by
    decide +kernel
  obtain ⟨row, hrow, htext⟩ := hexists
  obtain ⟨date, hread, hdate, hon, -⟩ := hrows Sample.run .events row hrow
  have heq : date = Sample.created.date := (hinj _ _).mp (hdate.symm.trans htext)
  rw [heq] at hread hon
  exact ⟨row, hrow, hread, fun h => hother ((hon _ _).mp h).2⟩

end Store

end DatedLedger

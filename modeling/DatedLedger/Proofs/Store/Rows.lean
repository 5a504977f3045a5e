import DatedLedger.Proofs.Calendar.ReadBack
import DatedLedger.Proofs.Order
import DatedLedger.Store.Read
import Mathlib.Data.List.Perm.Basic

/-!
# Rows as they are read

The row of an entry keeps every field, except that a payload comes back as
whatever its text parses to and words keep their low sixty-four bits.  Look-ups
and listings succeed exactly when every row they meet can be read.
-/

namespace DatedLedger

/-! ## Single rows -/

theorem rowResult_eq_ok_iff {α : Type} {r : Except RowFault α} {a : α} :
    rowResult r = .ok a ↔ r = .ok a := by
  cases r with
  | ok b => simp [rowResult, Except.mapError]
  | error e => simp [rowResult, Except.mapError]

/-- Storing a word keeps its low sixty-four bits. -/
theorem unsignedWord_signedWord_eq_mod (n : Nat) :
    unsignedWord (signedWord n) = n % 2 ^ 64 := by
  have hlt : n % 2 ^ 64 < 2 ^ 64 := Nat.mod_lt n (by decide)
  have hword : signedWord (n % 2 ^ 64) = signedWord n := by
    simp only [signedWord, Nat.mod_mod]
  rw [← hword, unsignedWord_signedWord hlt]

theorem EntityKind.ofName?_eq_some_iff {text : String} {kind : EntityKind} :
    ofName? text = some kind ↔ text = kind.name := by
  constructor
  · intro h
    have hname := List.find?_some h
    exact (beq_iff_eq.mp hname).symm
  · rintro rfl
    exact ofName?_name kind

theorem EventType.ofName?_eq_some_iff {text : String} {type : EventType} :
    ofName? text = some type ↔ text = type.name := by
  constructor
  · intro h
    have hname := List.find?_some h
    exact (beq_iff_eq.mp hname).symm
  · rintro rfl
    exact ofName?_name type

theorem EntityKind.name_inj {a b : EntityKind} : a.name = b.name ↔ a = b := by
  constructor
  · intro h
    have hb := ofName?_name b
    rw [← h, ofName?_name a] at hb
    exact Option.some.inj hb
  · intro h
    rw [h]

theorem readKind_eq_ok_iff {text : String} {kind : EntityKind} :
    readKind text = .ok kind ↔ text = kind.name := by
  rw [← EntityKind.ofName?_eq_some_iff, readKind]
  split
  next k hk => simp [hk]
  next hk => simp [hk]

theorem readType_eq_ok_iff {text : String} {type : EventType} :
    readType text = .ok type ↔ text = type.name := by
  rw [← EventType.ofName?_eq_some_iff, readType]
  split
  next k hk => simp [hk]
  next hk => simp [hk]

theorem readDate_text (d : Date) : readDate d.text = .ok d := by
  rw [readDate, Date.parse_text]

theorem readPayload_eq_ok_iff {text : String} {p : Payload} :
    readPayload text = .ok p ↔ Payload.parse text = .ok p := by
  rw [readPayload]
  split
  next q hq => simp [hq]
  next e he => simp [he]

theorem LogRow.entry_eq_ok_iff {row : LogRow} {e : Entry} :
    row.entry = .ok e ↔ readDate row.date = .ok e.date ∧
      Payload.parse row.payload = .ok e.payload ∧ e.pos = unsignedWord row.pos ∧
      e.id = row.id ∧ e.key = row.key ∧ e.submission = row.submission ∧
      e.initiator = row.initiator ∧ e.recordedMs = unsignedWord row.recordedMs := by
  obtain ⟨pos, id, key, date, payload, submission, initiator, ms⟩ := e
  rw [← readPayload_eq_ok_iff, LogRow.entry]
  cases hdate : readDate row.date with
  | error f => simp [bind, Except.bind]
  | ok d =>
    cases hpayload : readPayload row.payload with
    | error f => simp [bind, Except.bind]
    | ok p =>
      simp only [bind, Except.bind, Except.ok.injEq, Entry.mk.injEq]
      grind

theorem EventRow.event_eq_ok_iff {row : EventRow} {e : Event} :
    row.event = .ok e ↔
      row.kind = e.kind.name ∧ row.type = e.type.name ∧ row.toLogRow.entry = .ok e.toEntry := by
  obtain ⟨entry, kind, type⟩ := e
  rw [← readKind_eq_ok_iff, ← readType_eq_ok_iff, EventRow.event]
  cases hkind : readKind row.kind with
  | error f => simp [bind, Except.bind]
  | ok k =>
    cases htype : readType row.type with
    | error f => simp [bind, Except.bind]
    | ok t =>
      cases hentry : row.toLogRow.entry with
      | error f => simp [bind, Except.bind]
      | ok e =>
        simp only [bind, Except.bind, Except.ok.injEq, Event.mk.injEq]
        grind

theorem VersionRow.version_eq_ok_iff {row : VersionRow} {v : Version} :
    row.version = .ok v ↔ (0 ≤ row.seqNo ∧ row.seqNo < 2 ^ 32) ∧ v.seqNo = row.seqNo.toNat ∧
      Payload.parse row.attributes = .ok v.attributes ∧ readDate row.validFrom = .ok v.validFrom ∧
      row.validTo.mapM readDate = .ok v.validTo ∧ v.key = row.key := by
  obtain ⟨key, seqNo, attributes, validFrom, validTo⟩ := v
  rw [← readPayload_eq_ok_iff, VersionRow.version]
  by_cases hseqNo : 0 ≤ row.seqNo ∧ row.seqNo < 2 ^ 32
  · rw [if_pos hseqNo]
    cases hattributes : readPayload row.attributes with
    | error f => simp [bind, Except.bind]
    | ok p =>
      cases hfrom : readDate row.validFrom with
      | error f => simp [bind, Except.bind]
      | ok d =>
        cases row.validTo with
        | none =>
          simp only [bind, Except.bind, Option.mapM_none, pure, Except.pure, Except.ok.injEq,
            Version.mk.injEq]
          grind
        | some text =>
          cases hto : readDate text with
          | error f => simp [bind, Except.bind, Except.map, hto, Option.mapM_some]
          | ok last =>
            simp only [bind, Except.bind, Except.map, Option.mapM_some, hto, Functor.map,
              Except.ok.injEq, Version.mk.injEq]
            grind
  · rw [if_neg hseqNo]
    exact iff_of_false (by simp [bind, Except.bind]) fun h => hseqNo h.1

/-- An entry as it comes back from its row, with the payload that its text stands for. -/
def Entry.stored (e : Entry) (p : Payload) : Entry :=
  { e with pos := e.pos % 2 ^ 64, payload := p, recordedMs := e.recordedMs % 2 ^ 64 }

def Event.stored (e : Event) (p : Payload) : Event :=
  { e.toEntry.stored p with kind := e.kind, type := e.type }

theorem Entry.entry_row_eq_ok_iff {e e' : Entry} :
    e.row.entry = .ok e' ↔ ∃ p, Payload.parse e.payload.text = .ok p ∧ e' = e.stored p := by
  obtain ⟨pos, id, key, date, payload, submission, initiator, ms⟩ := e'
  simp only [LogRow.entry_eq_ok_iff, Entry.row, readDate_text, unsignedWord_signedWord_eq_mod,
    Except.ok.injEq, Entry.stored, Entry.mk.injEq]
  grind

theorem Event.event_row_eq_ok_iff {e e' : Event} :
    e.row.event = .ok e' ↔ ∃ p, Payload.parse e.payload.text = .ok p ∧ e' = e.stored p := by
  obtain ⟨entry, kind, type⟩ := e'
  have hentry : e.toEntry.row.entry = .ok entry ↔
      ∃ p, Payload.parse e.payload.text = .ok p ∧ entry = e.toEntry.stored p :=
    Entry.entry_row_eq_ok_iff
  rw [EventRow.event_eq_ok_iff]
  simp only [Event.row, hentry, EntityKind.name_inj, Event.stored, Event.mk.injEq]
  have htype : e.type.name = type.name ↔ e.type = type := by
    rw [← EventType.ofName?_eq_some_iff, EventType.ofName?_name, Option.some_inj]
  rw [htype]
  grind

theorem Entry.entry_row_of_parse_eq_error {e : Entry} {fault : PayloadFault}
    (h : Payload.parse e.payload.text = .error fault) : e.row.entry = .error (.payload fault) := by
  have hdate : readDate e.row.date = .ok e.date := readDate_text e.date
  have hpayload : readPayload e.row.payload = .error (.payload fault) := by
    rw [readPayload, Entry.row, h]
  simp only [LogRow.entry, hdate, hpayload, bind, Except.bind]

theorem Event.event_row_of_parse_eq_error {e : Event} {fault : PayloadFault}
    (h : Payload.parse e.payload.text = .error fault) : e.row.event = .error (.payload fault) := by
  have hkind : readKind e.row.kind = .ok e.kind := readKind_eq_ok_iff.mpr rfl
  have htype : readType e.row.type = .ok e.type := readType_eq_ok_iff.mpr rfl
  have hentry : e.row.toLogRow.entry = .error (.payload fault) :=
    Entry.entry_row_of_parse_eq_error h
  simp only [EventRow.event, hkind, htype, hentry, bind, Except.bind]

/-- A payload and words that fit come back as they are. -/
theorem Entry.stored_eq_self {e : Entry} (hpos : e.pos < 2 ^ 64) (hms : e.recordedMs < 2 ^ 64) :
    e.stored e.payload = e := by
  rw [Entry.stored, Nat.mod_eq_of_lt hpos, Nat.mod_eq_of_lt hms]

theorem Event.stored_eq_self {e : Event} (hpos : e.pos < 2 ^ 64) (hms : e.recordedMs < 2 ^ 64) :
    e.stored e.payload = e := by
  rw [Event.stored, Entry.stored_eq_self hpos hms]

/-! ## Rows that the ledger has written -/

/-- The row is that of some entry. -/
def LogRow.Written (row : LogRow) : Prop :=
  ∃ e : Entry, row = e.row

theorem Entry.written_row (e : Entry) : e.row.Written :=
  ⟨e, rfl⟩

theorem LogRow.Written.date_eq {row : LogRow} (hrow : row.Written) {e : Entry}
    (he : row.entry = .ok e) : row.date = e.date.text := by
  obtain ⟨e', rfl⟩ := hrow
  obtain ⟨p, -, rfl⟩ := Entry.entry_row_eq_ok_iff.mp he
  rfl

/-! ## Look-ups -/

namespace Store

theorem hasId_iff {id : String} {row : LogRow} : hasId id row ↔ row.id = id := by
  simp [hasId]

theorem isOn_iff {key : EntityKey} {date : Date} {row : LogRow} :
    isOn key date row ↔ row.key = key ∧ row.date = date.text := by
  simp [isOn]

theorem mapM_rowResult_eq_none_iff {ρ α : Type} {read : ρ → Except RowFault α} {row? : Option ρ} :
    (row?.mapM fun row => rowResult (read row)) = .ok none ↔ row? = none := by
  cases row? with
  | none => simp [pure, Except.pure]
  | some row =>
    cases h : rowResult (read row) with
    | ok a => simp [h, Option.mapM_some, Functor.map, Except.map]
    | error e => simp [h, Option.mapM_some, Functor.map, Except.map]

theorem mapM_rowResult_eq_some_iff {ρ α : Type} {read : ρ → Except RowFault α} {row? : Option ρ}
    {a : α} :
    (row?.mapM fun row => rowResult (read row)) = .ok (some a) ↔
      ∃ row, row? = some row ∧ read row = .ok a := by
  cases row? with
  | none => simp [pure, Except.pure]
  | some row =>
    simp only [Option.some.injEq, exists_eq_left', ← rowResult_eq_ok_iff]
    cases h : rowResult (read row) with
    | ok b => simp [h, Option.mapM_some, Functor.map, Except.map]
    | error e => simp [h, Option.mapM_some, Functor.map, Except.map]

theorem event?_eq_none_iff {s : Store} {p : EventRow → Bool} :
    s.event? p = .ok none ↔ ∀ row ∈ s.events, ¬p row := by
  rw [event?, mapM_rowResult_eq_none_iff, List.find?_eq_none]

theorem event?_eq_some_iff {s : Store} {p : EventRow → Bool} {e : Event} :
    s.event? p = .ok (some e) ↔ ∃ row, s.events.find? p = some row ∧ row.event = .ok e :=
  mapM_rowResult_eq_some_iff

theorem entry?_eq_none_iff {rows : List LogRow} {p : LogRow → Bool} :
    entry? rows p = .ok none ↔ ∀ row ∈ rows, ¬p row := by
  unfold entry?
  rw [mapM_rowResult_eq_none_iff, List.find?_eq_none]

theorem entry?_eq_some_iff {rows : List LogRow} {p : LogRow → Bool} {e : Entry} :
    entry? rows p = .ok (some e) ↔ ∃ row, rows.find? p = some row ∧ row.entry = .ok e :=
  mapM_rowResult_eq_some_iff

/-! ## Listings -/

/-- Rows are read one by one, each to the value in its place. -/
theorem readAll_eq_ok_iff {ρ α : Type} {read : ρ → Except RowFault α} {rows : List ρ}
    {xs : List α} : readAll read rows = .ok xs ↔ rows.map read = xs.map .ok := by
  induction rows generalizing xs with
  | nil => simp [readAll, pure, Except.pure, eq_comm]
  | cons row rest ih =>
    have hcons : readAll read (row :: rest) =
        rowResult (read row) >>= fun x => readAll read rest >>= fun rest => .ok (x :: rest) := by
      rw [readAll, List.mapM_cons]
      rfl
    rw [hcons]
    cases hrow : rowResult (read row) with
    | error e =>
      have hread : ∀ a, read row ≠ .ok a := by
        intro a ha
        rw [rowResult_eq_ok_iff.mpr ha] at hrow
        cases hrow
      cases xs with
      | nil => simp [bind, Except.bind]
      | cons x xs => simp [bind, Except.bind, hread]
    | ok a =>
      have hread := rowResult_eq_ok_iff.mp hrow
      cases hrest : readAll read rest with
      | error e =>
        have hnone : ∀ ys : List α, rest.map read ≠ ys.map .ok := by
          intro ys hys
          rw [ih.mpr hys] at hrest
          cases hrest
        cases xs with
        | nil => simp [bind, Except.bind]
        | cons x xs => simp [bind, Except.bind, hnone]
      | ok ys =>
        have hys := ih.mp hrest
        cases xs with
        | nil => simp [bind, Except.bind]
        | cons x xs =>
          have hinj : ys.map (Except.ok (ε := RowFault)) = xs.map .ok ↔ ys = xs :=
            List.map_inj_right fun _ _ h => Except.ok.inj h
          simp [bind, Except.bind, hread, hys, hinj]

theorem exists_of_mem_readAll {ρ α : Type} {read : ρ → Except RowFault α} {rows : List ρ}
    {xs : List α} (h : readAll read rows = .ok xs) {x : α} (hx : x ∈ xs) :
    ∃ row ∈ rows, read row = .ok x := by
  have hmem : Except.ok x ∈ rows.map read := by
    rw [readAll_eq_ok_iff.mp h]
    exact List.mem_map_of_mem hx
  exact List.mem_map.mp hmem

theorem exists_mem_of_readAll {ρ α : Type} {read : ρ → Except RowFault α} {rows : List ρ}
    {xs : List α} (h : readAll read rows = .ok xs) {row : ρ} (hrow : row ∈ rows) :
    ∃ x ∈ xs, read row = .ok x := by
  have hmem : read row ∈ xs.map .ok := by
    rw [← readAll_eq_ok_iff.mp h]
    exact List.mem_map_of_mem hrow
  obtain ⟨x, hx, hread⟩ := List.mem_map.mp hmem
  exact ⟨x, hx, hread.symm⟩

theorem exists_readAll_of_forall {ρ α : Type} {read : ρ → Except RowFault α} {rows : List ρ}
    (h : ∀ row ∈ rows, ∃ x, read row = .ok x) : ∃ xs, readAll read rows = .ok xs := by
  induction rows with
  | nil => exact ⟨[], rfl⟩
  | cons row rest ih =>
    obtain ⟨hrow, hrest⟩ := List.forall_mem_cons.mp h
    obtain ⟨x, hx⟩ := hrow
    obtain ⟨xs, hxs⟩ := ih hrest
    refine ⟨x :: xs, ?_⟩
    rw [readAll_eq_ok_iff] at hxs ⊢
    rw [List.map_cons, List.map_cons, hx, hxs]

/-- Where rows fail for one cause only, that is the error. -/
theorem readAll_eq_error {ρ α : Type} {read : ρ → Except RowFault α} {rows : List ρ}
    {fault : RowFault} (hfails : ∃ row ∈ rows, read row = .error fault)
    (honly : ∀ row ∈ rows, ∀ f, read row = .error f → f = fault) :
    readAll read rows = .error (.row fault) := by
  induction rows with
  | nil =>
    obtain ⟨row, hrow, -⟩ := hfails
    cases hrow
  | cons row rest ih =>
    obtain ⟨hrow, hrest⟩ := List.forall_mem_cons.mp honly
    rw [readAll, List.mapM_cons]
    cases hread : read row with
    | error f =>
      rw [hrow f hread]
      rfl
    | ok x =>
      have hlater : ∃ r ∈ rest, read r = .error fault := by
        obtain ⟨r, hr, hfault⟩ := hfails
        rcases List.mem_cons.mp hr with rfl | hr
        · rw [hread] at hfault
          cases hfault
        · exact ⟨r, hr, hfault⟩
      have htail := ih hlater hrest
      rw [readAll] at htail
      rw [htail]
      rfl

/-- The same rows in another order read as the same values in another order. -/
theorem readAll_perm {ρ α : Type} {read : ρ → Except RowFault α} {rows rows' : List ρ}
    {xs : List α} (h : readAll read rows = .ok xs) (hperm : rows'.Perm rows) :
    ∃ xs', readAll read rows' = .ok xs' ∧ xs'.Perm xs := by
  obtain ⟨xs', hxs'⟩ : ∃ xs', readAll read rows' = .ok xs' := by
    apply exists_readAll_of_forall
    intro row hrow
    obtain ⟨x, -, hx⟩ := exists_mem_of_readAll h (hperm.mem_iff.mp hrow)
    exact ⟨x, hx⟩
  have hmap : (xs'.map (Except.ok (ε := RowFault))).Perm (xs.map .ok) := by
    rw [← readAll_eq_ok_iff.mp h, ← readAll_eq_ok_iff.mp hxs']
    exact hperm.map read
  have hinj : Function.Injective (Except.ok (ε := RowFault) (α := α)) :=
    fun _ _ h => Except.ok.inj h
  exact ⟨xs', hxs', (List.map_perm_map_iff hinj).mp hmap⟩

theorem readAll_append_singleton {ρ α : Type} {read : ρ → Except RowFault α} {rows : List ρ}
    {row : ρ} {xs : List α} {x : α} (h : readAll read rows = .ok xs) (hrow : read row = .ok x) :
    readAll read (rows ++ [row]) = .ok (xs ++ [x]) := by
  rw [readAll_eq_ok_iff] at h ⊢
  rw [List.map_append, List.map_append, h, List.map_singleton, hrow, List.map_singleton]

/-- Adding a row to rows that are listed in order adds its value to the list. -/
theorem readAll_sortBy_append {ρ α : Type} {read : ρ → Except RowFault α} {le : ρ → ρ → Bool}
    {rows : List ρ} {row : ρ} {xs : List α} {x : α}
    (h : readAll read (sortBy le rows) = .ok xs) (hrow : read row = .ok x) :
    ∃ xs', readAll read (sortBy le (rows ++ [row])) = .ok xs' ∧ xs'.Perm (x :: xs) := by
  have hperm : (sortBy le (rows ++ [row])).Perm (sortBy le rows ++ [row]) :=
    (perm_sortBy le _).trans ((perm_sortBy le rows).symm.append_right [row])
  obtain ⟨xs', hread, hxs'⟩ := readAll_perm (readAll_append_singleton h hrow) hperm
  exact ⟨xs', hread, hxs'.trans (List.perm_append_singleton x xs)⟩

theorem readAll_sortBy_append_of_eq_error {ρ α : Type} {read : ρ → Except RowFault α}
    {le : ρ → ρ → Bool} {rows : List ρ} {row : ρ} {xs : List α} {fault : RowFault}
    (h : readAll read (sortBy le rows) = .ok xs) (hrow : read row = .error fault) :
    readAll read (sortBy le (rows ++ [row])) = .error (.row fault) := by
  apply readAll_eq_error
  · exact ⟨row, mem_sortBy.mpr (List.mem_append_right _ List.mem_cons_self), hrow⟩
  · intro r hr f hf
    rcases List.mem_append.mp (mem_sortBy.mp hr) with hr | hr
    · obtain ⟨x, -, hread⟩ := exists_mem_of_readAll h (mem_sortBy.mpr hr)
      rw [hread] at hf
      cases hf
    · rw [List.mem_singleton.mp hr, hrow] at hf
      exact (Except.error.inj hf).symm

end Store

end DatedLedger

import DatedLedger.Proofs.Run.Requests

/-!
# Positions along a run

The three logs share one count.  As long as the count fits into a signed word, the
positions in a store are the numbers from one to the number of its rows, and the
next entry gets the number after them.
-/

namespace DatedLedger

namespace Store

variable {s t : Store} {a : AuditEntry}

/-- The stored positions of all entries. -/
def positions (s : Store) : List Int :=
  (s.rows .events ++ (s.rows .corrections ++ s.rows .rescinds)).map LogRow.pos

/-- The number of entries in the three logs. -/
def size (s : Store) : Nat :=
  s.events.length + s.corrections.length + s.rescinds.length

theorem mem_positions_iff {p : Int} :
    p ∈ s.positions ↔ ∃ log, ∃ row ∈ s.rows log, row.pos = p := by
  rw [positions, List.mem_map]
  constructor
  · rintro ⟨row, hrow, rfl⟩
    rcases List.mem_append.mp hrow with hrow | hrow
    · exact ⟨.events, row, hrow, rfl⟩
    · rcases List.mem_append.mp hrow with hrow | hrow
      · exact ⟨.corrections, row, hrow, rfl⟩
      · exact ⟨.rescinds, row, hrow, rfl⟩
  · rintro ⟨log, row, hrow, rfl⟩
    refine ⟨row, ?_, rfl⟩
    cases log with
    | events => exact List.mem_append_left _ hrow
    | corrections => exact List.mem_append_right _ (List.mem_append_left _ hrow)
    | rescinds => exact List.mem_append_right _ (List.mem_append_right _ hrow)

theorem size_add (s : Store) (a : AuditEntry) : (s.add a).size = s.size + 1 := by
  cases a with
  | event e =>
    simp only [size, add, List.length_append, List.length_singleton]
    omega
  | correction e =>
    simp only [size, add, List.length_append, List.length_singleton]
    omega
  | rescind e =>
    simp only [size, add, List.length_append, List.length_singleton]
    omega

theorem size_eq_of_logs_eq (h : t.logs = s.logs) : t.size = s.size := by
  have hsize := congrArg size h
  exact hsize

theorem size_le_size_run (r : Request) (s : Store) : s.size ≤ (r.run s).size := by
  rcases r.logs_run s with h | ⟨a, -, h⟩
  · exact Nat.le_of_eq (size_eq_of_logs_eq h).symm
  · rw [size_eq_of_logs_eq h, size_add]
    exact Nat.le_succ s.size

/-- A run adds at most one entry for each request. -/
theorem size_after_le (rs : List Request) : (s.after rs).size ≤ s.size + rs.length := by
  induction rs generalizing s with
  | nil => exact Nat.le_refl _
  | cons r rest ih =>
    have hrest := ih (s := r.run s)
    have hrun : (r.run s).size ≤ s.size + 1 := by
      rcases r.logs_run s with h | ⟨a, -, h⟩
      · rw [size_eq_of_logs_eq h]
        exact Nat.le_succ _
      · exact Nat.le_of_eq ((size_eq_of_logs_eq h).trans (size_add s a))
    rw [after_cons, List.length_cons]
    omega

theorem size_sample_lt : (empty.after Sample.run).size < 2 ^ 63 - 1 :=
  Nat.lt_of_le_of_lt (size_after_le Sample.run) (by decide)

theorem positions_add (s : Store) (a : AuditEntry) :
    (s.add a).positions.Perm (s.positions ++ [signedWord a.entry.pos]) := by
  have hrow : [signedWord a.entry.pos] = [a.entry.row].map LogRow.pos := rfl
  rw [hrow, positions, positions, ← List.map_append]
  apply List.Perm.map
  rw [rows_add, rows_add, rows_add]
  cases a with
  | event e =>
    simp only [AuditEntry.log, reduceCtorEq, if_true, if_false, List.append_assoc]
    rw [← List.append_assoc (s.rows .corrections)]
    exact List.perm_append_comm.append_left _
  | correction e =>
    simp only [AuditEntry.log, reduceCtorEq, if_true, if_false, List.append_assoc]
    exact (List.perm_append_comm.append_left _).append_left _
  | rescind e =>
    simp only [AuditEntry.log, reduceCtorEq, if_true, if_false, List.append_assoc]
    exact .refl _

/-- Positions count the entries from one on, and a correction of a date comes before a rescind
of that date. -/
structure Counted (s : Store) : Prop where
  positions : s.positions.Perm ((List.range s.size).map fun i : Nat => (i : Int) + 1)
  ordered : ∀ c ∈ s.corrections, ∀ r ∈ s.rescinds, c.key = r.key → c.date = r.date → c.pos < r.pos

theorem Counted.mem_iff (hs : s.Counted) {p : Int} : p ∈ s.positions ↔ 1 ≤ p ∧ p ≤ s.size := by
  rw [hs.positions.mem_iff, List.mem_map]
  constructor
  · rintro ⟨i, hi, rfl⟩
    have hlt := List.mem_range.mp hi
    omega
  · rintro ⟨hone, hle⟩
    refine ⟨(p - 1).toNat, ?_, ?_⟩
    · rw [List.mem_range]
      omega
    · omega

theorem Counted.bounds (hs : s.Counted) (log : Log) {row : LogRow} (hrow : row ∈ s.rows log) :
    1 ≤ row.pos ∧ row.pos ≤ s.size :=
  hs.mem_iff.mp (mem_positions_iff.mpr ⟨log, row, hrow, rfl⟩)

theorem lastPosition_cases (s : Store) (log : Log) :
    s.lastPosition log = 0 ∨ ∃ row ∈ s.rows log, row.pos = s.lastPosition log := by
  rw [lastPosition]
  cases hmax : ((s.rows log).map LogRow.pos).max? with
  | none => exact .inl rfl
  | some m => exact .inr (List.mem_map.mp (List.max?_mem hmax))

theorem Counted.lastPosition_bounds (hs : s.Counted) (log : Log) :
    0 ≤ s.lastPosition log ∧ s.lastPosition log ≤ s.size := by
  rcases s.lastPosition_cases log with h | ⟨row, hrow, h⟩
  · omega
  · have hbounds := hs.bounds log hrow
    omega

/-- The next position is the number after that of the last entry. -/
theorem Counted.nextPosition_eq (hs : s.Counted) (hsize : s.size < 2 ^ 63) :
    s.nextPosition = s.size + 1 := by
  have hevents := hs.lastPosition_bounds .events
  have hcorrections := hs.lastPosition_bounds .corrections
  have hrescinds := hs.lastPosition_bounds .rescinds
  have hlast : max (s.lastPosition .events)
      (max (s.lastPosition .corrections) (s.lastPosition .rescinds)) = s.size := by
    rcases Nat.eq_zero_or_pos s.size with hzero | hpos
    · omega
    -- The row with the last number stands in one of the logs, whose maximum it reaches.
    · have hmem : (s.size : Int) ∈ s.positions := hs.mem_iff.mpr ⟨by omega, Int.le_refl _⟩
      obtain ⟨log, row, hrow, hp⟩ := mem_positions_iff.mp hmem
      have hle := pos_le_lastPosition hrow
      cases log with
      | events => omega
      | corrections => omega
      | rescinds => omega
  have hword : unsignedWord s.size = s.size := by
    rw [← signedWord_of_lt hsize]
    exact unsignedWord_signedWord (by omega)
  rw [nextPosition, hlast, hword, Position.next]
  exact Nat.mod_eq_of_lt (by omega)

theorem Counted.of_logs_eq (hs : s.Counted) (h : t.logs = s.logs) : t.Counted where
  positions := by
    have hpositions := congrArg Store.positions h
    have hsize := size_eq_of_logs_eq h
    change t.positions = s.positions at hpositions
    rw [hpositions, hsize]
    exact hs.positions
  ordered := by
    have hcorrections := congrArg Store.corrections h
    have hrescinds := congrArg Store.rescinds h
    change t.corrections = s.corrections at hcorrections
    change t.rescinds = s.rescinds at hrescinds
    rw [hcorrections, hrescinds]
    exact hs.ordered

theorem Counted.add (hs : s.Counted) (hadmits : s.Admits a) (hsize : (s.add a).size < 2 ^ 63) :
    (s.add a).Counted := by
  rw [size_add] at hsize
  have hpos : signedWord a.entry.pos = (s.size : Int) + 1 := by
    rw [hadmits.pos, hs.nextPosition_eq (by omega), signedWord_of_lt hsize]
    rfl
  constructor
  · rw [size_add, List.range_succ, List.map_append, List.map_singleton, ← hpos]
    exact (positions_add s a).trans (hs.positions.append_right _)
  · cases a with
    | event e => exact hs.ordered
    | correction x =>
      intro c hc r hr hkey hdate
      rcases List.mem_append.mp hc with hc | hc
      · exact hs.ordered c hc r hr hkey hdate
      · exfalso
        rw [List.mem_singleton.mp hc] at hkey hdate
        have hnone := entry?_eq_none_iff.mp (hadmits.stands x rfl) r hr
        exact hnone (isOn_iff.mpr ⟨hkey.symm, hdate.symm⟩)
    | rescind x =>
      intro c hc r hr hkey hdate
      rcases List.mem_append.mp hr with hr | hr
      · exact hs.ordered c hc r hr hkey hdate
      · rw [List.mem_singleton.mp hr]
        have hbounds := hs.bounds .corrections hc
        have hx : x.row.pos = (s.size : Int) + 1 := hpos
        omega

/-- An entry with the next position fits into a log where its other keys are new. -/
theorem Counted.fits (hs : s.Counted) (hsize : s.size + 1 < 2 ^ 63) (log : Log) {e : Entry}
    (hpos : e.pos = s.nextPosition)
    (hnew : ∀ row ∈ s.rows log, row.id ≠ e.id ∧
      (row.key.tenant = e.key.tenant → row.submission ≠ e.submission) ∧
      (row.key = e.key → row.date ≠ e.date.text)) :
    e.row.fault? log (s.rows log) = none := by
  rw [Session.fault?_eq_none_iff]
  intro row hrow
  obtain ⟨hid, hsubmission, hdate⟩ := hnew row hrow
  have hbounds := hs.bounds log hrow
  have hrowPos : e.row.pos = (s.size : Int) + 1 := by
    change signedWord e.pos = _
    rw [hpos, hs.nextPosition_eq (by omega), signedWord_of_lt hsize]
    rfl
  refine ⟨?_, ?_, ?_, ?_⟩
  · omega
  · rintro ⟨htenant, hsame⟩
    exact hsubmission htenant.symm hsame.symm
  · rintro ⟨hkey, hsame⟩
    exact hdate hkey.symm hsame.symm
  · intro hsame
    exact hid hsame.symm

/-- An entry with the next position fits into a log in which no look-up finds it. -/
theorem Counted.fits_of_not_found (hs : s.Counted) (hsize : s.size + 1 < 2 ^ 63) (log : Log)
    {e : Entry} (hpos : e.pos = s.nextPosition) (hid : ∀ row ∈ s.rows log, ¬hasId e.id row)
    (hsubmission : ∀ row ∈ s.rows log, ¬hasSubmission e.key.tenant e.submission row)
    (hon : ∀ row ∈ s.rows log, ¬isOn e.key e.date row) :
    e.row.fault? log (s.rows log) = none := by
  apply hs.fits hsize log hpos
  intro row hrow
  refine ⟨fun h => hid row hrow (hasId_iff.mpr h), fun htenant h => hsubmission row hrow ?_,
    fun hkey h => hon row hrow (isOn_iff.mpr ⟨hkey, h⟩)⟩
  simp [hasSubmission, htenant, h]

theorem forall_rows_events {p : LogRow → Prop} (h : ∀ row ∈ s.events, p row.toLogRow) :
    ∀ row ∈ s.rows .events, p row := by
  intro r hr
  obtain ⟨row, hrow, rfl⟩ := List.mem_map.mp hr
  exact h row hrow

theorem Counted.fits_submission (hs : s.Counted) (hsize : s.size + 1 < 2 ^ 63) {c : Submission}
    (hid : s.eventById c.id = .ok none)
    (hsubmission : s.eventBySubmission c.key.tenant c.submission = .ok none)
    (hon : s.eventOn c.key c.date = .ok none) (now : Nat) :
    (c.event s.nextPosition now).toEntry.row.fault? .events (s.rows .events) = none :=
  hs.fits_of_not_found hsize .events rfl (forall_rows_events (event?_eq_none_iff.mp hid))
    (forall_rows_events (event?_eq_none_iff.mp hsubmission))
    (forall_rows_events (event?_eq_none_iff.mp hon))

theorem Counted.fits_correction (hs : s.Counted) (hsize : s.size + 1 < 2 ^ 63) {c : Command}
    (hid : s.correctionById c.id = .ok none)
    (hsubmission : s.correctionBySubmission c.key.tenant c.submission = .ok none)
    (hon : s.correctionOn c.key c.date = .ok none) (now : Nat) :
    (c.entry s.nextPosition now).row.fault? .corrections (s.rows .corrections) = none :=
  hs.fits_of_not_found hsize .corrections rfl (entry?_eq_none_iff.mp hid)
    (entry?_eq_none_iff.mp hsubmission) (entry?_eq_none_iff.mp hon)

theorem Counted.fits_rescind (hs : s.Counted) (hsize : s.size + 1 < 2 ^ 63) {c : Command}
    (hid : s.rescindById c.id = .ok none)
    (hsubmission : s.rescindBySubmission c.key.tenant c.submission = .ok none)
    (hon : s.rescindOn c.key c.date = .ok none) (now : Nat) :
    (c.entry s.nextPosition now).row.fault? .rescinds (s.rows .rescinds) = none :=
  hs.fits_of_not_found hsize .rescinds rfl (entry?_eq_none_iff.mp hid)
    (entry?_eq_none_iff.mp hsubmission) (entry?_eq_none_iff.mp hon)

theorem counted_empty : empty.Counted where
  positions := .refl _
  ordered := by
    intro c hc
    cases hc

theorem Counted.run (hs : s.Counted) (r : Request) (hsize : (r.run s).size < 2 ^ 63) :
    (r.run s).Counted := by
  rcases r.logs_run s with h | ⟨a, hadmits, h⟩
  · exact hs.of_logs_eq h
  · rw [size_eq_of_logs_eq h] at hsize
    exact (hs.add hadmits hsize).of_logs_eq h

theorem size_le_size_after (s : Store) (rs : List Request) : s.size ≤ (s.after rs).size :=
  after_induction (P := fun t => s.size ≤ t.size) (Nat.le_refl _)
    (fun r t ht => Nat.le_trans ht (size_le_size_run r t)) rs

theorem Counted.after (hs : s.Counted) (rs : List Request) (hsize : (s.after rs).size < 2 ^ 63) :
    (s.after rs).Counted := by
  revert hsize
  refine after_induction (P := fun t => t.size < 2 ^ 63 → t.Counted) (fun _ => hs) ?_ rs
  intro r t ht hsize
  have hle := size_le_size_run r t
  exact (ht (by omega)).run r hsize

theorem counted_after (rs : List Request) (hsize : (empty.after rs).size < 2 ^ 63) :
    (empty.after rs).Counted :=
  counted_empty.after rs hsize

end Store

end DatedLedger

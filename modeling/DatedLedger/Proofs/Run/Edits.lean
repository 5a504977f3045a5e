import DatedLedger.Proofs.Run.Verification
import DatedLedger.Proofs.Timeline.Encoding

/-!
# Edits of stored timelines

Somebody edits the rows of the stored timelines from outside.  When verification
succeeds all the same, and the hash tells encodings apart, the rows of the entity read
as the timeline that follows from the logs.  Verification reads dates and the look-up
compares their texts, so the look-up still finds the version in effect as long as the
dates stand in the rows as the ledger writes them, and it can miss it otherwise.
-/

namespace DatedLedger

namespace Store

variable {s : Store} {rows : List VersionRow} {key : EntityKey} {h : History}
  {timeline stored : Timeline} {last : Option Position} {date : Date}

/-- The store with other rows in its stored timelines. -/
def withVersions (s : Store) (rows : List VersionRow) : Store :=
  { s with versions := rows }

theorem replayEntity_withVersions (s : Store) (rows : List VersionRow) (key : EntityKey) :
    (s.withVersions rows).replayEntity key = s.replayEntity key := rfl

theorem Integral.of_mem_replay (hs : s.Integral) (hreads : s.Reads key h)
    (hreplay : replay key h.events h.corrections h.rescinds = .ok timeline) {v : Version}
    (hv : v ∈ timeline) : v.attributes.Integral := by
  rw [Payload.integral_iff_every]
  refine every_of_mem_replay hreplay ?_ ?_ hv
  · intro e he
    exact Payload.integral_iff_every.mp
      (hs.of_mem_entries hreads .events (List.mem_map_of_mem he))
  · intro c hc
    exact Payload.integral_iff_every.mp (hs.of_mem_entries hreads .corrections hc)

/-- Rows with the digest of the replayed timeline are read as that timeline. -/
theorem Integral.timelineOf_withVersions (hs : s.Integral)
    (hconsistent : Ledger.isConsistent (s.withVersions rows) key = .ok true)
    (hhash : ∀ timeline last stored, s.replayEntity key = .ok (timeline, last) →
      (s.withVersions rows).timelineOf key = .ok stored → stored.Distinguished timeline) :
    ∃ h timeline, s.Reads key h ∧ replay key h.events h.corrections h.rescinds = .ok timeline ∧
      (s.withVersions rows).timelineOf key = .ok timeline := by
  obtain ⟨-, timeline, last, stored, -, hreplayed, hstored, -, hdigests⟩ :=
    Ledger.isConsistent_eq_true_iff.mp hconsistent
  rw [replayEntity_withVersions] at hreplayed
  obtain ⟨h, hreads, hreplay, -⟩ := replayEntity_eq_ok_iff.mp hreplayed
  have hencodings := hhash timeline last stored hreplayed hstored
    (Timeline.digest_eq_iff.mp hdigests.symm)
  have hsame : stored = timeline :=
    Timeline.eq_of_encoding_eq hencodings (fun v hv => key_of_mem_replay hreplay hv)
      (fun v hv => key_of_mem_timelineOf hstored hv)
      fun v hv => hs.of_mem_replay hreads hreplay hv
  rw [hsame] at hstored
  exact ⟨h, timeline, hreads, hreplay, hstored⟩

/-- Where rows read as the replayed timeline and dates stand in them as they are written, the
look-up finds what the timeline has. -/
theorem Sound.versionAsOf_withVersions (hs : s.Sound) (hreads : s.Reads key h)
    (hreplay : replay key h.events h.corrections h.rescinds = .ok timeline)
    (hread : (s.withVersions rows).timelineOf key = .ok timeline)
    (hyears : ∀ row ∈ (s.ofEntity key).events, ∃ d : Date, d.HasFourDigitYear ∧ row.date = d.text)
    (hwritten : ∀ row ∈ rows, row.key = key → row.HasWrittenDates)
    (hdate : date.HasFourDigitYear) :
    (s.withVersions rows).versionAsOf key date = .ok (timeline.asOf? date) := by
  refine Store.versionAsOf_eq hread ?_ ?_ hdate (pairwise_contains_replay hreplay)
  · intro row hrow
    obtain ⟨hmem, hkey⟩ := List.mem_filter.mp hrow
    exact hwritten row hmem (beq_iff_eq.mp hkey)
  · intro v hv
    exact hasFourDigitYears_of_mem_replay hreplay
      (fun e he => hs.hasFourDigitYear_of_mem hreads hyears he) hv

end Store

/-! ## Edits that pass verification -/

/-- Somebody gave the store that a run of integral requests had reached other rows of versions, and
verification of an entity succeeds on it.  The dates of the entity's events lie in years with four
digits, and the hash tells the timeline that the rows read as from the one that is replayed. -/
structure Ledger.Passes (l : Ledger) (rs : List Request) (rows : List VersionRow) (ctx : Context)
    (key : EntityKey) : Prop where
  integral : ∀ r ∈ rs, r.Integral
  years : ∀ row ∈ ((Store.empty.after rs).ofEntity key).events,
    ∃ d : Date, d.HasFourDigitYear ∧ row.date = d.text
  store : l.store = (Store.empty.after rs).withVersions rows
  tenant : ctx.tenant = some key.tenant
  verified : Ledger.verify ctx key l = .ok true l
  hash : ∀ timeline last stored, l.store.replayEntity key = .ok (timeline, last) →
    l.store.timelineOf key = .ok stored → stored.Distinguished timeline

namespace Store

/-- When rows of versions that somebody has edited pass verification, and hold their dates as the
ledger writes them, the ledger answers every date in years with four digits with the version that
a replay has in effect on it, and finds none exactly when there is none. -/
theorem versionAsOf_of_passes (rs : List Request) (rows : List VersionRow) (ctx : Context)
    (key : EntityKey) (l : Ledger) (hl : l.Passes rs rows ctx key)
    (hwritten : ∀ row ∈ rows, row.key = key → row.HasWrittenDates)
    (date : Date) (hdate : date.HasFourDigitYear) :
    ∃ timeline last, (empty.after rs).replayEntity key = .ok (timeline, last) ∧
      (∀ v, timeline.asOf? date = some v → Ledger.versionAsOf ctx key date l = .ok v l) ∧
      (Ledger.versionAsOf ctx key date l = .error (.notFound (.version key.entity date)) l ↔
        timeline.asOf? date = none) := by
  have hsound := sound_after rs
  have hconsistent := (Ledger.verify_eq_true_iff hl.tenant).mp hl.verified
  have hhash := hl.hash
  rw [hl.store] at hconsistent hhash
  obtain ⟨h, timeline, hreads, hreplay, hread⟩ :=
    (integral_after hl.integral).timelineOf_withVersions hconsistent hhash
  have hfound := hsound.versionAsOf_withVersions hreads hreplay hread hl.years hwritten hdate
  rw [← hl.store] at hfound
  refine ⟨timeline, h.positions.max?, replayEntity_eq_ok_iff.mpr ⟨h, hreads, hreplay, rfl⟩, ?_,
    Ledger.versionAsOf_eq_notFound_iff hl.tenant hfound⟩
  intro v hv
  rw [hv] at hfound
  exact Ledger.versionAsOf_of_some hl.tenant hfound

end Store

/-! ## Two edits -/

namespace Sample

/-- The ledger after the assignment was created, with other rows of versions. -/
def edited (rows : List VersionRow) : Ledger :=
  ⟨.standard, (Store.empty.after [.submit created 1]).withVersions rows, false⟩

/-- The version of the assignment, with the given texts for its attributes and its first day. -/
def versionRow (attributes validFrom : String) : VersionRow :=
  { key := key, seqNo := 1, attributes := attributes, validFrom := validFrom, validTo := none }

/-- The texts of the attributes with a blank in front. -/
def spaced : VersionRow :=
  versionRow (" " ++ payload.text) created.date.text

/-- The first day with one digit for the month. -/
def shortened : VersionRow :=
  versionRow payload.text "2024-1-15"

theorem passes (rows : List VersionRow)
    (hconsistent : (Ledger.isConsistent (edited rows).store key).toOption = some true)
    (hencodings : ((edited rows).store.timelineOf key).toOption.map Timeline.encoding =
      ((edited rows).store.replayEntity key).toOption.map fun r => r.1.encoding) :
    (edited rows).Passes [.submit created 1] rows (.ofTenant "acme") key where
  integral := List.forall_mem_singleton.mpr ⟨trivial, trivial⟩
  years := by
    have hdates : ∀ row ∈ ((Store.empty.after [.submit created 1]).ofEntity key).events,
        row.date = created.date.text := by
      decide +kernel
    intro row hrow
    exact ⟨created.date, ⟨by decide, by decide⟩, hdates row hrow⟩
  store := rfl
  tenant := rfl
  verified := (Ledger.verify_eq_true_iff rfl).mpr (eq_ok_of_toOption hconsistent)
  hash := by
    intro timeline last stored hreplay hstored _
    rw [hreplay, hstored] at hencodings
    exact Option.some.inj hencodings

/-- The assignment is in effect on the date of its later change. -/
theorem exists_asOf : ∃ timeline last v,
    (Store.empty.after [.submit created 1]).replayEntity key = .ok (timeline, last) ∧
      timeline.asOf? updated.date = some v := by
  have hcovered : ((Store.empty.after [.submit created 1]).replayEntity key).toOption.map
      (fun r => (r.1.asOf? updated.date).isSome) = some true := by
    decide +kernel
  obtain ⟨⟨timeline, last⟩, hreplay, hsome⟩ := Option.map_eq_some_iff.mp hcovered
  obtain ⟨v, hv⟩ := Option.isSome_iff_exists.mp hsome
  exact ⟨timeline, last, v, eq_ok_of_toOption hreplay, hv⟩

end Sample

namespace Store

theorem versionAsOf_of_passes_sample :
    ∃ v, Ledger.versionAsOf (.ofTenant "acme") Sample.key Sample.updated.date
      (Sample.edited [Sample.spaced]) = .ok v (Sample.edited [Sample.spaced]) := by
  have hpasses := Sample.passes [Sample.spaced] (by decide +kernel) (by decide +kernel)
  have hwritten : ∀ row ∈ [Sample.spaced], row.key = Sample.key → row.HasWrittenDates := by
    intro row hrow _
    rw [List.mem_singleton.mp hrow]
    exact ⟨⟨Sample.created.date, rfl⟩, by simp [Sample.spaced, Sample.versionRow]⟩
  obtain ⟨timeline, last, v, hreplay, hv⟩ := Sample.exists_asOf
  obtain ⟨timeline', last', hreplay', hanswers, -⟩ := versionAsOf_of_passes _ _ _ _ _ hpasses
    hwritten Sample.updated.date ⟨by decide, by decide⟩
  rw [hreplay] at hreplay'
  cases hreplay'
  exact ⟨v, hanswers v hv⟩

/-- A row can pass verification although the ledger does not find it on a date that it covers. -/
theorem not_forall_versionAsOf_of_passes :
    ¬∀ (rs : List Request) (rows : List VersionRow) (ctx : Context) (key : EntityKey) (l : Ledger),
      l.Passes rs rows ctx key → (rows.Pairwise fun a b => ¬a.sharesNumber b) →
      ∀ date : Date, date.HasFourDigitYear →
        ∀ timeline last, (empty.after rs).replayEntity key = .ok (timeline, last) →
          ∀ v, timeline.asOf? date = some v → Ledger.versionAsOf ctx key date l = .ok v l := by
  intro hall
  have hpasses := Sample.passes [Sample.shortened] (by decide +kernel) (by decide +kernel)
  obtain ⟨timeline, last, v, hreplay, hv⟩ := Sample.exists_asOf
  have hanswer := hall _ _ _ _ _ hpasses (List.pairwise_singleton _ _) Sample.updated.date
    ⟨by decide, by decide⟩ timeline last hreplay v hv
  have hmissed : ((Sample.edited [Sample.shortened]).store.versionAsOf Sample.key
      Sample.updated.date).toOption.map Option.isNone = some true := by
    decide +kernel
  obtain ⟨found, hfound, hnone⟩ := Option.map_eq_some_iff.mp hmissed
  rw [Option.isNone_iff_eq_none.mp hnone] at hfound
  rw [Ledger.versionAsOf_of_none hpasses.tenant (eq_ok_of_toOption hfound)] at hanswer
  cases hanswer

end Store

end DatedLedger

import DatedLedger.Proofs.Calendar.TextOrder
import DatedLedger.Proofs.Run.Integrality
import DatedLedger.Proofs.Run.Soundness

/-!
# The version in effect on a date

The store looks a version up by comparing texts of dates, and takes the latest start
among the rows that cover the date.  Where years have four digits, exactly those rows
cover a date by their texts whose versions contain it, and no two versions contain
the same date.  So the look-up finds what the replayed timeline has on that date.
-/

namespace DatedLedger

/-! ## Rows that cover a date -/

/-- The bounds of the version lie in years with four digits. -/
def Version.HasFourDigitYears (v : Version) : Prop :=
  v.validFrom.HasFourDigitYear ∧ ∀ last ∈ v.validTo, last.HasFourDigitYear

/-- The dates of the row stand in it as the ledger writes them. -/
def VersionRow.HasWrittenDates (row : VersionRow) : Prop :=
  (∃ date : Date, row.validFrom = date.text) ∧ ∀ last ∈ row.validTo, ∃ date : Date, last = date.text

theorem Version.hasWrittenDates_row (v : Version) : v.row.HasWrittenDates := by
  refine ⟨⟨v.validFrom, rfl⟩, ?_⟩
  intro last hlast
  obtain ⟨date, -, rfl⟩ := Option.map_eq_some_iff.mp hlast
  exact ⟨date, rfl⟩

theorem VersionRow.HasWrittenDates.eq_text {row : VersionRow} (hrow : row.HasWrittenDates)
    {v : Version} (h : row.version = .ok v) :
    row.validFrom = v.validFrom.text ∧ row.validTo = v.validTo.map Date.text := by
  obtain ⟨-, -, -, hfrom, hto, -⟩ := VersionRow.version_eq_ok_iff.mp h
  obtain ⟨⟨date, hdate⟩, hlast⟩ := hrow
  constructor
  · rw [hdate, readDate_text] at hfrom
    rw [hdate, Except.ok.inj hfrom]
  · cases hend : row.validTo with
    | none =>
      rw [hend] at hto
      rw [← Except.ok.inj hto]
      rfl
    | some text =>
      obtain ⟨last, rfl⟩ := hlast text hend
      rw [hend, Option.mapM_some, readDate_text] at hto
      rw [← Except.ok.inj hto]
      rfl

namespace Store

variable {s : Store} {key : EntityKey} {h : History} {timeline : Timeline} {date : Date}
  {first : Event}

theorem covers_eq_contains {row : VersionRow} {v : Version} (hread : row.version = .ok v)
    (hrow : row.HasWrittenDates) (hkey : row.key = key) (hv : v.HasFourDigitYears)
    (hdate : date.HasFourDigitYear) : covers key date.text row = v.contains date := by
  obtain ⟨hfrom, hto⟩ := hv
  obtain ⟨hvalidFrom, hvalidTo⟩ := hrow.eq_text hread
  have hstart : (!decide (date.text < row.validFrom)) = decide (v.validFrom ≤ date) := by
    have htext := Date.text_lt_text_iff hdate hfrom
    rw [← decide_not, decide_eq_decide, hvalidFrom, htext, not_lt]
  have hrowKey : (row.key == key) = true := beq_iff_eq.mpr hkey
  rw [covers, hrowKey, hstart, Version.contains, Bool.true_and, hvalidTo]
  congr 1
  cases hlast : v.validTo with
  | none => rfl
  | some last =>
    have htext := Date.text_lt_text_iff hdate (hto last hlast)
    simp [htext]

/-- Only rows of the entity cover a date of it. -/
theorem filter_covers (s : Store) (key : EntityKey) (date : String) :
    s.versions.filter (covers key date) = (s.ofEntity key).versions.filter (covers key date) := by
  rw [ofEntity, List.filter_filter]
  apply List.filter_congr
  intro row _
  by_cases hrow : row.key = key
  · simp [hrow]
  · simp [covers, hrow]

/-- The rows of an entity, in some order, read as its stored timeline. -/
theorem exists_perm_of_timelineOf (hread : s.timelineOf key = .ok timeline) :
    ∃ rows : List VersionRow, rows.Perm (s.ofEntity key).versions ∧
      rows.map VersionRow.version = timeline.map .ok :=
  ⟨_, perm_sortBy _ _, readAll_eq_ok_iff.mp hread⟩

/-- Where the rows of an entity read as a timeline in which no two versions contain a date, the row
that is found is that of the version in effect, in whatever order the rows are listed. -/
theorem versionAsOf_eq (hread : s.timelineOf key = .ok timeline)
    (hwritten : ∀ row ∈ (s.ofEntity key).versions, row.HasWrittenDates)
    (hyears : ∀ v ∈ timeline, v.HasFourDigitYears) (hdate : date.HasFourDigitYear)
    (halone : timeline.Pairwise fun v w => ∀ date, v.contains date → ¬w.contains date) :
    s.versionAsOf key date = .ok (timeline.asOf? date) := by
  obtain ⟨rows, hperm, hrows⟩ := exists_perm_of_timelineOf hread
  have hcovers : ∀ row ∈ rows, ∀ v ∈ timeline, row.version = .ok v →
      covers key date.text row = v.contains date := by
    intro row hrow v hv hversion
    have hmem := hperm.mem_iff.mp hrow
    have hkey : row.key = key := by simpa using (List.mem_filter.mp hmem).2
    exact covers_eq_contains hversion (hwritten row hmem) hkey (hyears v hv) hdate
  have hfound := map_filter_eq_of_map_eq hrows hcovers
  have hfilter := hperm.filter (covers key date.text)
  rw [filter_eq_toList_find? (halone.imp fun hvw => hvw date), ← Timeline.asOf?] at hfound
  rw [versionAsOf, filter_covers]
  cases hv : timeline.asOf? date with
  | none =>
    rw [hv] at hfound
    rw [List.map_eq_nil_iff.mp hfound] at hfilter
    rw [← hfilter.nil_eq]
    rfl
  | some v =>
    rw [hv] at hfound
    obtain ⟨row, hrow, hversion⟩ := List.map_eq_singleton_iff.mp hfound
    rw [hrow] at hfilter
    rw [List.perm_singleton.mp hfilter.symm]
    exact mapM_rowResult_eq_some_iff.mpr ⟨row, rfl, hversion⟩

/-! ## The stored timeline of an entity -/

/-- The rows of a replayed timeline are listed as they are stored. -/
theorem timelineOf_eq (hversions : (s.ofEntity key).versions = timeline.map Version.row)
    (hreplay : replay key h.events h.corrections h.rescinds = .ok timeline) :
    s.timelineOf key = readAll VersionRow.version (timeline.map Version.row) := by
  have hrows : s.versions.filter (fun row => row.key == key) = timeline.map Version.row := hversions
  have hsorted : (timeline.map Version.row).Pairwise fun a b => decide (a.seqNo ≤ b.seqNo) := by
    rw [List.pairwise_map]
    apply (pairwise_seqNo_replay hreplay).imp
    intro v w hvw
    exact decide_eq_true (Int.ofNat_le.mpr hvw)
  rw [timelineOf, hrows, sortBy_eq_self hsorted]

theorem timelineOf_of_version_row
    (hversions : (s.ofEntity key).versions = timeline.map Version.row)
    (hreplay : replay key h.events h.corrections h.rescinds = .ok timeline)
    (hread : ∀ v ∈ timeline, v.row.version = .ok v) : s.timelineOf key = .ok timeline := by
  rw [timelineOf_eq hversions hreplay, readAll_eq_ok_iff, List.map_map]
  apply List.map_congr_left
  intro v hv
  rw [Function.comp_apply, hread v hv]

theorem Sound.exists_timeline (hs : s.Sound) (key : EntityKey) :
    ∃ h timeline, s.Reads key h ∧
      replay key h.events h.corrections h.rescinds = .ok timeline ∧
      (s.ofEntity key).versions = timeline.map Version.row := by
  rcases hs.entities key with hempty | ⟨kind, h, -, head, timeline, -, hcoherent⟩
  · exact ⟨.empty, [], reads_empty hempty, rfl, congrArg Store.versions hempty⟩
  · exact ⟨h, timeline, hcoherent.reads, hcoherent.replayed, hcoherent.versions⟩

/-- Every row of the stored timelines is that of a version which follows from its entity's logs. -/
theorem Sound.exists_version_of_mem (hs : s.Sound) {row : VersionRow} (hrow : row ∈ s.versions) :
    ∃ h timeline, s.Reads row.key h ∧
      replay row.key h.events h.corrections h.rescinds = .ok timeline ∧
      ∃ v ∈ timeline, row = v.row := by
  obtain ⟨h, timeline, hreads, hreplay, hversions⟩ := hs.exists_timeline row.key
  have hmem : row ∈ (s.ofEntity row.key).versions :=
    List.mem_filter.mpr ⟨hrow, beq_self_eq_true row.key⟩
  rw [hversions] at hmem
  obtain ⟨v, hv, hvrow⟩ := List.mem_map.mp hmem
  exact ⟨h, timeline, hreads, hreplay, v, hv, hvrow.symm⟩

/-- The dates of an entity's events have four digits when their stored texts do. -/
theorem Sound.hasFourDigitYear_of_mem (hs : s.Sound) (hreads : s.Reads key h)
    (hyears : ∀ row ∈ (s.ofEntity key).events, ∃ d : Date, d.HasFourDigitYear ∧ row.date = d.text)
    {e : Event} (he : e ∈ h.events) : e.date.HasFourDigitYear := by
  obtain ⟨row, hrow, hkey, hread⟩ := hreads.mem_events_iff.mp he
  obtain ⟨d, hd, htext⟩ := hyears row (mem_events_ofEntity.mpr ⟨hrow, hkey⟩)
  have hwritten := hs.written .events row.toLogRow (List.mem_map_of_mem hrow)
  have hdate := hwritten.date_eq (EventRow.event_eq_ok_iff.mp hread).2.2
  rw [htext, Date.text_inj] at hdate
  rw [← hdate]
  exact hd

/-- Versions start and end on dates of events. -/
theorem hasFourDigitYears_of_mem_replay
    (hreplay : replay key h.events h.corrections h.rescinds = .ok timeline)
    (hyears : ∀ e ∈ h.events, e.date.HasFourDigitYear) {v : Version} (hv : v ∈ timeline) :
    v.HasFourDigitYears := by
  obtain ⟨steps, -, rfl, hdates⟩ := exists_steps_of_replay hreplay
  have hstep : ∀ step ∈ steps, step.date.HasFourDigitYear := by
    intro step hmem
    obtain ⟨e, he, hedate, -⟩ := (hdates step.date).mp (List.mem_map_of_mem hmem)
    rw [← hedate]
    exact hyears e he
  obtain ⟨⟨step, hmem, hfrom, -⟩, hto, -⟩ := Replay.exists_step_of_mem_stitch hv
  constructor
  · rw [hfrom]
    exact hstep step hmem
  · intro last hlast
    obtain ⟨next, hnext, rfl⟩ := hto last hlast
    exact hstep next hnext

/-- The look-up finds the version that the replayed timeline has on the date. -/
theorem Sound.versionAsOf_eq (hs : s.Sound) (hintegral : s.Integral) (hreads : s.Reads key h)
    (hreplay : replay key h.events h.corrections h.rescinds = .ok timeline)
    (hversions : (s.ofEntity key).versions = timeline.map Version.row)
    (hyears : ∀ row ∈ (s.ofEntity key).events, ∃ d : Date, d.HasFourDigitYear ∧ row.date = d.text)
    (hdate : date.HasFourDigitYear) : s.versionAsOf key date = .ok (timeline.asOf? date) := by
  have hread := timelineOf_of_version_row hversions hreplay fun v hv =>
    hintegral.version_row hreads hreplay hv
  refine Store.versionAsOf_eq hread ?_ ?_ hdate (pairwise_contains_replay hreplay)
  · rw [hversions, List.forall_mem_map]
    exact fun v _ => v.hasWrittenDates_row
  · intro v hv
    exact hasFourDigitYears_of_mem_replay hreplay
      (fun e he => hs.hasFourDigitYear_of_mem hreads hyears he) hv

/-- A founded history has no version exactly on the dates before its first event. -/
theorem asOf?_eq_none_iff (hfirst : h.FoundedBy first)
    (hreplay : replay key h.events h.corrections h.rescinds = .ok timeline) :
    timeline.asOf? date = none ↔ date < first.date := by
  obtain ⟨steps, -, rfl, hdates⟩ := exists_steps_of_replay hreplay
  rw [Replay.asOf?_stitch_eq_none_iff]
  constructor
  · intro hbefore
    have hmem := (hdates first.date).mpr ⟨first, hfirst.mem, rfl, hfirst.kept⟩
    obtain ⟨step, hstep, hdate⟩ := List.mem_map.mp hmem
    rw [← hdate]
    exact hbefore step hstep
  · intro hbefore step hstep
    obtain ⟨e, he, hdate, -⟩ := (hdates step.date).mp (List.mem_map_of_mem hstep)
    rw [← hdate]
    rcases hfirst.eq_or_later he with rfl | ⟨-, hlater⟩
    · exact hbefore
    · exact hbefore.trans hlater

/-- There is no version of an entity exactly when it is unknown or was created later. -/
theorem Sound.asOf?_eq_none_iff (hs : s.Sound) (hreads : s.Reads key h)
    (hreplay : replay key h.events h.corrections h.rescinds = .ok timeline) :
    timeline.asOf? date = none ↔ s.head key = .ok none ∨
      ∃ h, s.Reads key h ∧ ∃ first ∈ h.events, first.type = .create ∧ date < first.date := by
  rcases hs.entities key with hempty | ⟨kind, h', hregistered⟩
  · have hh := hreads.eq (reads_empty hempty)
    rw [hh] at hreplay
    cases hreplay
    exact ⟨fun _ => .inl (head_eq_none_of_empty hempty), fun _ => rfl⟩
  · have hh := hregistered.reads.eq hreads
    rw [hh] at hregistered
    obtain ⟨first, hfirst⟩ := hregistered.wellFormed.founded
    obtain ⟨head, hhead, -⟩ := hregistered.exists_head
    rw [Store.asOf?_eq_none_iff hfirst hreplay, hhead]
    constructor
    · intro hbefore
      exact .inr ⟨h, hreads, first, hfirst.mem, hfirst.type, hbefore⟩
    · rintro (hnone | ⟨h'', hreads', x, hx, htype, hbefore⟩)
      · cases hnone
      · rw [← hreads.eq hreads'] at hx
        rcases hfirst.eq_or_later hx with rfl | ⟨hupdate, -⟩
        · exact hbefore
        · rw [htype] at hupdate
          cases hupdate

end Store

/-! ## The answer of the ledger -/

namespace Ledger

variable {ctx : Context} {key : EntityKey} {date : Date} {l : Ledger}

theorem versionAsOf_of_some {v : Version} (hctx : ctx.tenant = some key.tenant)
    (hfound : l.store.versionAsOf key date = .ok (some v)) :
    versionAsOf ctx key date l = .ok v l := by
  have hauthorize := Context.authorize_eq_ok_iff.mpr hctx
  simp only [versionAsOf, authorize, hauthorize, bind, EStateM.bind, pure, EStateM.pure, read,
    hfound]

theorem versionAsOf_of_none (hctx : ctx.tenant = some key.tenant)
    (hnone : l.store.versionAsOf key date = .ok none) :
    versionAsOf ctx key date l = .error (.notFound (.version key.entity date)) l := by
  have hauthorize := Context.authorize_eq_ok_iff.mpr hctx
  simp only [versionAsOf, authorize, hauthorize, bind, EStateM.bind, pure, EStateM.pure, read,
    hnone]
  rfl

theorem versionAsOf_eq_notFound_iff {found : Option Version} (hctx : ctx.tenant = some key.tenant)
    (hfound : l.store.versionAsOf key date = .ok found) :
    versionAsOf ctx key date l = .error (.notFound (.version key.entity date)) l ↔
      found = none := by
  cases found with
  | none => simp [versionAsOf_of_none hctx hfound]
  | some v => simp [versionAsOf_of_some hctx hfound]

end Ledger

namespace Store

/-- In every store that a run of integral requests reaches, the look-up by texts finds the version
that the replayed timeline has on a date, given that the date and those of the entity's events
have years with four digits.  So a ledger has no answer exactly for unknown entities and for dates
before an entity was created. -/
theorem versionAsOf_after (rs : List Request) (hintegral : ∀ r ∈ rs, r.Integral) (key : EntityKey)
    (hyears : ∀ row ∈ ((empty.after rs).ofEntity key).events,
      ∃ d : Date, d.HasFourDigitYear ∧ row.date = d.text)
    (date : Date) (hdate : date.HasFourDigitYear) :
    ∃ timeline last, (empty.after rs).replayEntity key = .ok (timeline, last) ∧
      (empty.after rs).versionAsOf key date = .ok (timeline.asOf? date) ∧
      ∀ (ctx : Context) (l : Ledger), ctx.tenant = some key.tenant → l.store = empty.after rs →
        (∀ v, timeline.asOf? date = some v → Ledger.versionAsOf ctx key date l = .ok v l) ∧
        (Ledger.versionAsOf ctx key date l = .error (.notFound (.version key.entity date)) l ↔
          (empty.after rs).head key = .ok none ∨
            ∃ h, (empty.after rs).Reads key h ∧
              ∃ first ∈ h.events, first.type = .create ∧ date < first.date) := by
  have hsound := sound_after rs
  obtain ⟨h, timeline, hreads, hreplay, hversions⟩ := hsound.exists_timeline key
  have hfound := hsound.versionAsOf_eq (integral_after hintegral) hreads hreplay hversions hyears
    hdate
  refine ⟨timeline, h.positions.max?, replayEntity_eq_ok_iff.mpr ⟨h, hreads, hreplay, rfl⟩,
    hfound, ?_⟩
  intro ctx l hctx hl
  rw [← hl] at hfound
  rw [← hsound.asOf?_eq_none_iff hreads hreplay]
  refine ⟨?_, Ledger.versionAsOf_eq_notFound_iff hctx hfound⟩
  intro v hv
  rw [hv] at hfound
  exact Ledger.versionAsOf_of_some hctx hfound

theorem versionAsOf_after_sample :
    ∃ timeline last,
      (empty.after [.submit Sample.created 1, .submit Sample.updated 2]).replayEntity Sample.key =
        .ok (timeline, last) ∧
      (empty.after [.submit Sample.created 1, .submit Sample.updated 2]).versionAsOf Sample.key
        Sample.updated.date = .ok (timeline.asOf? Sample.updated.date) := by
  have hintegral : Sample.payload.Integral := ⟨trivial, trivial⟩
  obtain ⟨timeline, last, hreplay, hfound, -⟩ := versionAsOf_after
    [.submit Sample.created 1, .submit Sample.updated 2]
    (List.forall_mem_cons.mpr ⟨hintegral, List.forall_mem_cons.mpr ⟨hintegral, by simp⟩⟩)
    Sample.key
    (by
      have hdates : ∀ row ∈ ((empty.after
          [.submit Sample.created 1, .submit Sample.updated 2]).ofEntity Sample.key).events,
          row.date = Sample.created.date.text ∨ row.date = Sample.updated.date.text := by
        decide +kernel
      intro row hrow
      rcases hdates row hrow with htext | htext
      · exact ⟨Sample.created.date, ⟨by decide, by decide⟩, htext⟩
      · exact ⟨Sample.updated.date, ⟨by decide, by decide⟩, htext⟩)
    Sample.updated.date ⟨by decide, by decide⟩
  exact ⟨timeline, last, hreplay, hfound⟩

end Store

end DatedLedger

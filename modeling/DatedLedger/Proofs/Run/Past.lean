import DatedLedger.Proofs.Run.AsOf
import DatedLedger.Proofs.Run.Effects
import DatedLedger.Proofs.Run.Tenants
import DatedLedger.Proofs.Timeline.Past

/-!
# Mutations do not rewrite the past

A mutation that records an entry removes all versions of the entity and stores those
that now follow from its logs.  Still no version that begins before the date of the
entry becomes another one: only the last of them may end on another day, and on every
day before that date the same attributes are in effect as they were.
-/

namespace DatedLedger

/-- A stored version without its end. -/
def VersionRow.opened (row : VersionRow) : VersionRow :=
  { row with validTo := none }

/-- Whether a stored version begins before a date. -/
def VersionRow.beginsBefore (date : Date) (row : VersionRow) : Bool :=
  match readDate row.validFrom with
  | .ok first => decide (first < date)
  | .error _ => false

theorem Version.beginsBefore_row (v : Version) (date : Date) :
    v.row.beginsBefore date = decide (v.validFrom < date) := by
  have hread : readDate v.row.validFrom = .ok v.validFrom := readDate_text v.validFrom
  rw [VersionRow.beginsBefore, hread]

namespace Store

variable {s s' : Store} {key : EntityKey} {timeline timeline' : Timeline} {a : AuditEntry}
  {date : Date}

/-- The stored versions of an entity that begin before a date, in order. -/
def versionsBefore (s : Store) (key : EntityKey) (date : Date) : List VersionRow :=
  (s.ofEntity key).versions.filter (VersionRow.beginsBefore date)

/-- The timeline that follows from the logs of an entity, and that is stored for it. -/
structure Shows (s : Store) (key : EntityKey) (timeline : Timeline) : Prop where
  replayed : ∃ last, s.replayEntity key = .ok (timeline, last)
  stored : (s.ofEntity key).versions = timeline.map Version.row

theorem Shows.versionsBefore_eq (h : s.Shows key timeline) (date : Date) :
    s.versionsBefore key date =
      (timeline.filter fun v => v.validFrom < date).map Version.row := by
  have hbegins : VersionRow.beginsBefore date ∘ Version.row =
      fun v => decide (v.validFrom < date) := funext fun v => v.beginsBefore_row date
  rw [versionsBefore, h.stored, List.filter_map, hbegins]

theorem Sound.exists_shows (hs : s.Sound) (key : EntityKey) :
    ∃ timeline, s.Shows key timeline := by
  obtain ⟨h, timeline, hreads, hreplay, hversions⟩ := hs.exists_timeline key
  exact ⟨timeline, ⟨_, replayEntity_eq_ok_iff.mpr ⟨h, hreads, hreplay, rfl⟩⟩, hversions⟩

/-- With an entry more in the logs of an entity, its versions before the date of the entry are the
same up to the end of the last. -/
theorem Sound.sameButLast_of_gains (hs : s.Sound) (hgains : s.Gains a s')
    (hshows : s.Shows a.entry.key timeline) (hshows' : s'.Shows a.entry.key timeline') :
    SameButLast Version.opened (timeline'.filter fun v => v.validFrom < a.entry.date)
        (timeline.filter fun v => v.validFrom < a.entry.date) ∧
      ∀ day < a.entry.date,
        (timeline'.asOf? day).map Version.attributes =
          (timeline.asOf? day).map Version.attributes := by
  obtain ⟨last, hreplay⟩ := hshows.replayed
  obtain ⟨h, hreads, htimeline, -⟩ := replayEntity_eq_ok_iff.mp hreplay
  obtain ⟨last', hreplay'⟩ := hshows'.replayed
  rw [replayEntity_eq_of_logs_eq hgains.logs] at hreplay'
  obtain ⟨h', hreads', htimeline', -⟩ := replayEntity_eq_ok_iff.mp hreplay'
  obtain ⟨p, -, hperm⟩ := hreads.perm_add hreads'
  have hdate : (a.stored p).entry.date = a.entry.date := by
    cases a <;> rfl
  have hbefore := hperm.before a.entry.date
  rw [← hdate, History.before_add, hdate] at hbefore
  obtain ⟨history, hhistory, hevents, hcorrections⟩ := hs.exists_reads_nodup a.entry.key
  rw [hhistory.eq hreads] at hevents hcorrections
  have hsame := sameButLast_of_before_perm htimeline htimeline' hbefore hevents hcorrections
  exact ⟨hsame, fun day hday => attributes_asOf?_eq htimeline htimeline' hsame hday⟩

/-- In every store that a run reaches, a mutation that records an entry leaves the stored versions
that begin before its date as they were, except for the end of the last of them.  On every day
before that date the same attributes are in effect as before. -/
theorem past_after (rs : List Request) (m : Mutation) (now : Nat) (a : AuditEntry) (s' : Store)
    (h : (m.session now).transaction (empty.after rs) = .ok (.appended a) s') :
    SameButLast VersionRow.opened (s'.versionsBefore m.key m.command.date)
        ((empty.after rs).versionsBefore m.key m.command.date) ∧
      ∃ timeline timeline', (empty.after rs).Shows m.key timeline ∧ s'.Shows m.key timeline' ∧
        ∀ day < m.command.date,
          (timeline'.asOf? day).map Version.attributes =
            (timeline.asOf? day).map Version.attributes := by
  have hsound := sound_after rs
  have hok := Session.transaction_eq_ok_iff.mp h
  obtain ⟨timeline, hshows⟩ := hsound.exists_shows m.key
  obtain ⟨timeline', hshows'⟩ := (Mutation.sound_of_eq_ok hsound hok).exists_shows m.key
  rcases Mutation.eq_or_records hsound hok with ⟨b, hout, -⟩ | ⟨hout, t, ht, hrec⟩
  · cases hout
  · obtain rfl := Outcome.appended.inj hout
    rw [← m.key_entry (empty.after rs).nextPosition now] at hshows hshows' ⊢
    rw [← m.date_entry (empty.after rs).nextPosition now]
    obtain ⟨hsame, hasOf⟩ := hsound.sameButLast_of_gains (ht.gains hrec) hshows hshows'
    rw [hshows.versionsBefore_eq, hshows'.versionsBefore_eq]
    exact ⟨hsame.map fun v => rfl, timeline, timeline', hshows, hshows', hasOf⟩

/-- Taking the later change back leaves the version before it, which has no end any more. -/
theorem past_after_sample :
    ∃ a s', ((Mutation.rescind Sample.rescinded).session 3).transaction
        (empty.after [.submit Sample.created 1, .submit Sample.updated 2]) = .ok (.appended a) s' ∧
      SameButLast VersionRow.opened (s'.versionsBefore Sample.key Sample.rescinded.date)
        ((empty.after [.submit Sample.created 1, .submit Sample.updated 2]).versionsBefore
          Sample.key Sample.rescinded.date) ∧
      (empty.after [.submit Sample.created 1, .submit Sample.updated 2]).versionsBefore
        Sample.key Sample.rescinded.date ≠ [] := by
  have happends : ((Mutation.rescind Sample.rescinded).session 3).Appends
      (empty.after [.submit Sample.created 1, .submit Sample.updated 2]) := by decide +kernel
  obtain ⟨a, s', h⟩ := happends
  exact ⟨a, s', h, (past_after _ _ _ a s' h).1, by decide +kernel⟩

end Store

end DatedLedger

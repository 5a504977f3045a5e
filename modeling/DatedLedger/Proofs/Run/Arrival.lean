import DatedLedger.Proofs.Run.Answers
import DatedLedger.Proofs.Run.Identity
import Mathlib.Data.List.Induction

/-!
# The order in which updates arrive

Updates of one entity that share no key are answered each as if it came first, up to
the places of new events.  So the same updates are recorded in whatever order they
arrive, and the timeline that follows from them is the same.
-/

namespace DatedLedger

namespace Store

/-- Submissions as requests, each with the time at which it is made. -/
def arrivals (batch : List (Submission × Nat)) : List Request :=
  batch.map fun x => .submit x.1 x.2

/-- What submissions are answered one after another, up to the places of new events. -/
def answers (s : Store) :
    List (Submission × Nat) → List (Submission × Except LedgerError (Outcome Event))
  | [] => []
  | (c, now) :: rest =>
    (c, ((Session.submit c now).answer s).map Outcome.unplaced) ::
      answers ((Request.submit c now).run s) rest

/-- Updates of one entity of which no two share an identifier, a request or a date. -/
structure Updates (key : EntityKey) (cs : List Submission) : Prop where
  key : ∀ c ∈ cs, c.key = key
  type : ∀ c ∈ cs, c.type = .update
  ids : (cs.map fun c => c.id).Nodup
  submissions : (cs.map fun c => c.submission).Nodup
  dates : (cs.map fun c => c.date).Nodup

/-- The second store has besides the first one the events of some submissions, and the same
identity of the entity. -/
structure Grown (s t : Store) (key : EntityKey) (cs : List Submission) : Prop where
  events : ∃ es : List Event, t.events = s.events ++ es.map Event.row ∧
    es.map Event.unplaced = cs.map fun c => c.event 0 0
  corrections : t.corrections = s.corrections
  rescinds : t.rescinds = s.rescinds
  head : ∃ head head', s.head key = .ok (some head) ∧ t.head key = .ok (some head') ∧
    head'.kind = head.kind ∧ head'.owningKey = head.owningKey

variable {s t t' : Store} {key : EntityKey} {cs cs' : List Submission} {c : Submission}
  {h h' : History} {kind : EntityKind} {first : Event} {head : Head} {now : Nat}
  {batch : List (Submission × Nat)}

/-! ## Batches -/

theorem Updates.sublist (hcs : Updates key cs) (hsub : cs'.Sublist cs) : Updates key cs' where
  key c hc := hcs.key c (hsub.subset hc)
  type c hc := hcs.type c (hsub.subset hc)
  ids := hcs.ids.sublist (hsub.map _)
  submissions := hcs.submissions.sublist (hsub.map _)
  dates := hcs.dates.sublist (hsub.map _)

theorem Updates.perm (hcs : Updates key cs) (hperm : cs.Perm cs') : Updates key cs' where
  key c hc := hcs.key c (hperm.mem_iff.mpr hc)
  type c hc := hcs.type c (hperm.mem_iff.mpr hc)
  ids := (hperm.map _).nodup_iff.mp hcs.ids
  submissions := (hperm.map _).nodup_iff.mp hcs.submissions
  dates := (hperm.map _).nodup_iff.mp hcs.dates

theorem forall_ne_of_nodup_map_append {α β : Type} {f : α → β} {xs : List α} {x : α}
    (h : ((xs ++ [x]).map f).Nodup) : ∀ y ∈ xs, f y ≠ f x := by
  intro y hy
  rw [List.map_append, List.nodup_append] at h
  exact h.2.2 (f y) (List.mem_map_of_mem hy) (f x) List.mem_cons_self

theorem answers_append (s : Store) (batch batch' : List (Submission × Nat)) :
    s.answers (batch ++ batch') = s.answers batch ++ (s.after (arrivals batch)).answers batch' := by
  induction batch generalizing s with
  | nil => rfl
  | cons x rest ih =>
    obtain ⟨c, now⟩ := x
    rw [List.cons_append, answers, answers, ih, List.cons_append]
    rfl

/-! ## Look-ups in a grown store -/

theorem eq_event_of_unplaced_eq {e : Event} (he : e.unplaced = c.event 0 0) :
    e = c.event e.pos e.recordedMs := by
  obtain ⟨⟨pos, id, key, date, payload, submission, initiator, ms⟩, kind, type⟩ := e
  simp only [Event.unplaced, Submission.event, Command.entry, Event.mk.injEq, Entry.mk.injEq]
    at he ⊢
  grind

theorem exists_submission_of_mem {es : List Event} {e : Event}
    (hes : es.map Event.unplaced = cs.map fun c => c.event 0 0) (he : e ∈ es) :
    ∃ c ∈ cs, e = c.event e.pos e.recordedMs := by
  have hmem : e.unplaced ∈ cs.map fun c => c.event 0 0 := by
    rw [← hes]
    exact List.mem_map_of_mem he
  obtain ⟨c, hc, hce⟩ := List.mem_map.mp hmem
  exact ⟨c, hc, eq_event_of_unplaced_eq hce.symm⟩

theorem Grown.exists_rows (hgrown : s.Grown t key cs) :
    ∃ rows, t.events = s.events ++ rows ∧
      ∀ row ∈ rows, ∃ c ∈ cs, ∃ pos now, row = (c.event pos now).row := by
  obtain ⟨es, hevents, hes⟩ := hgrown.events
  refine ⟨es.map Event.row, hevents, ?_⟩
  intro row hrow
  obtain ⟨e, he, rfl⟩ := List.mem_map.mp hrow
  obtain ⟨c, hc, hce⟩ := exists_submission_of_mem hes he
  exact ⟨c, hc, e.pos, e.recordedMs, congrArg Event.row hce⟩

/-- A look-up that none of the new events satisfies finds what it found before. -/
theorem Grown.event?_eq (hgrown : s.Grown t key cs) {p : EventRow → Bool}
    (hnone : ∀ c ∈ cs, ∀ pos now, ¬p (c.event pos now).row) : t.event? p = s.event? p := by
  obtain ⟨rows, hevents, hrows⟩ := hgrown.exists_rows
  have hfind : rows.find? p = none := by
    rw [List.find?_eq_none]
    intro row hrow
    obtain ⟨c, hc, pos, now, rfl⟩ := hrows row hrow
    exact hnone c hc pos now
  rw [event?, event?, hevents, List.find?_append, hfind, Option.or_none]

theorem Grown.eventById_eq (hgrown : s.Grown t key cs) (hcs : Updates key (cs ++ [c])) :
    t.eventById c.id = s.eventById c.id := by
  apply hgrown.event?_eq
  intro d hd pos now hid
  exact forall_ne_of_nodup_map_append hcs.ids d hd (hasId_iff.mp hid)

theorem Grown.eventBySubmission_eq (hgrown : s.Grown t key cs) (hcs : Updates key (cs ++ [c])) :
    t.eventBySubmission c.key.tenant c.submission =
      s.eventBySubmission c.key.tenant c.submission := by
  apply hgrown.event?_eq
  intro d hd pos now hsubmission
  simp only [hasSubmission, Bool.and_eq_true, beq_iff_eq] at hsubmission
  exact forall_ne_of_nodup_map_append hcs.submissions d hd hsubmission.2

theorem Grown.eventOn_eq (hgrown : s.Grown t key cs) (hcs : Updates key (cs ++ [c])) :
    t.eventOn c.key c.date = s.eventOn c.key c.date := by
  apply hgrown.event?_eq
  intro d hd pos now hon
  exact forall_ne_of_nodup_map_append hcs.dates d hd (Date.text_inj.mp (isOn_iff.mp hon).2)

theorem Grown.rescindOn_eq (hgrown : s.Grown t key cs) (date : Date) :
    t.rescindOn key date = s.rescindOn key date := by
  rw [rescindOn, rescindOn, hgrown.rescinds]

theorem Grown.size_le (hgrown : s.Grown t key cs) : s.size ≤ t.size := by
  obtain ⟨rows, hevents, -⟩ := hgrown.exists_rows
  rw [size, size, hevents, hgrown.corrections, hgrown.rescinds, List.length_append]
  omega

/-! ## Answers in a grown store -/

theorem Grown.isNew (hgrown : s.Grown t key cs) (hcs : Updates key (cs ++ [c]))
    (hnew : s.IsNew c) : t.IsNew c := by
  refine ⟨eventById_eq_none_iff.mp ?_, eventBySubmission_eq_none_iff.mp ?_,
    eventOn_eq_none_iff.mp ?_⟩
  · rw [hgrown.eventById_eq hcs]
    exact eventById_eq_none_iff.mpr hnew.id
  · rw [hgrown.eventBySubmission_eq hcs]
    exact eventBySubmission_eq_none_iff.mpr hnew.submission
  · rw [hgrown.eventOn_eq hcs]
    exact eventOn_eq_none_iff.mpr hnew.date

theorem Grown.corrections_eq (hgrown : s.Grown t key cs) (hs : s.Reads key h)
    (ht : t.Reads key h') : h'.corrections = h.corrections := by
  have hcorrections := ht.corrections
  rw [correctionsOf, hgrown.corrections] at hcorrections
  exact Except.ok.inj (hcorrections.symm.trans hs.corrections)

theorem Grown.rescinds_eq (hgrown : s.Grown t key cs) (hs : s.Reads key h)
    (ht : t.Reads key h') : h'.rescinds = h.rescinds := by
  have hrescinds := ht.rescinds
  rw [rescindsOf, hgrown.rescinds] at hrescinds
  exact Except.ok.inj (hrescinds.symm.trans hs.rescinds)

/-- The event that created the entity is still the one that did. -/
theorem Grown.foundedBy (hgrown : s.Grown t key cs) (hs : s.Reads key h) (ht : t.Reads key h')
    (hfirst : h.FoundedBy first) (hfounded : ∃ first', h'.FoundedBy first') :
    h'.FoundedBy first := by
  obtain ⟨first', hfirst'⟩ := hfounded
  obtain ⟨rows, hevents, -⟩ := hgrown.exists_rows
  obtain ⟨row, hrow, hkey, hread⟩ := hs.mem_events_iff.mp hfirst.mem
  have hmem : first ∈ h'.events := by
    refine ht.mem_events_iff.mpr ⟨row, ?_, hkey, hread⟩
    rw [hevents]
    exact List.mem_append_left _ hrow
  rcases hfirst'.eq_or_later hmem with rfl | ⟨hupdate, -⟩
  · exact hfirst'
  · rw [hfirst.type] at hupdate
    cases hupdate

/-- In a grown store a further update is answered as it would have been answered before. -/
theorem Grown.alike (hgrown : s.Grown t key cs) (hs : s.Sound) (ht : t.Sound)
    (hcs : s.Counted) (hct : t.Counted) (hsize : t.size + 1 < 2 ^ 63)
    (hupdates : Updates key (cs ++ [c])) (now now' : Nat) :
    (Session.submit c now).Alike s (Session.submit c now') t := by
  obtain rfl : c.key = key := hupdates.key c (List.mem_append_right _ List.mem_cons_self)
  have htype : c.type = .update := hupdates.type c (List.mem_append_right _ List.mem_cons_self)
  obtain ⟨head, head', hhead, hhead', hkind, howning⟩ := hgrown.head
  obtain ⟨h, hregistered⟩ := hs.exists_registered hhead
  obtain ⟨h', hregistered'⟩ := ht.exists_registered hhead'
  obtain ⟨first, hfirst⟩ := hregistered.wellFormed.founded
  have hfirst' := hgrown.foundedBy hregistered.reads hregistered'.reads hfirst
    hregistered'.wellFormed.founded
  have hcorrections := hgrown.corrections_eq hregistered.reads hregistered'.reads
  have hsizes := hgrown.size_le
  refine .submit (hgrown.eventById_eq hupdates) (hgrown.eventBySubmission_eq hupdates)
    (hgrown.eventOn_eq hupdates) (hgrown.rescindOn_eq c.date) hhead hhead' hkind howning ?_
  intro hnew
  have hnew' := hgrown.isNew hupdates hnew
  have hanswer := hs.answer_append_update hcs (by omega) hregistered hfirst hnew htype now
  have hanswer' := ht.answer_append_update hct hsize hregistered' hfirst' hnew' htype now'
  rw [Session.Alike, hanswer, hanswer', hcorrections]

/-! ## One more submission -/

theorem Grown.refl (hhead : s.head key = .ok (some head)) : s.Grown s key [] where
  events := ⟨[], (List.append_nil _).symm, rfl⟩
  corrections := rfl
  rescinds := rfl
  head := ⟨head, head, hhead, hhead, rfl, rfl⟩

theorem Grown.of_records (hgrown : s.Grown t c.key cs) {pos : Position}
    (hrec : t.Records (.event (c.event pos now)) t') : s.Grown t' c.key (cs ++ [c]) where
  events := by
    obtain ⟨es, hevents, hes⟩ := hgrown.events
    refine ⟨es ++ [c.event pos now], ?_, ?_⟩
    · rw [hrec.events_eq, hevents, List.append_assoc, List.map_append]
      rfl
    · rw [List.map_append, hes, List.map_append]
      rfl
  corrections := (congrArg Store.corrections hrec.logs_eq).trans hgrown.corrections
  rescinds := (congrArg Store.rescinds hrec.logs_eq).trans hgrown.rescinds
  head := by
    obtain ⟨head, head', hhead, hhead', hkind, howning⟩ := hgrown.head
    obtain ⟨head'', hhead'', hkind', howning'⟩ := hrec.exists_head hhead'
    exact ⟨head, head'', hhead, hhead'', hkind'.trans hkind, howning'.trans howning⟩

/-- A submission to a registered entity records its event, or changes nothing. -/
theorem Sound.run_submit_cases (hs : s.Sound) (hhead : s.head c.key = .ok (some head))
    (now : Nat) :
    ((Session.submit c now).Appends s ∧
        ∃ pos, s.Records (.event (c.event pos now)) ((Request.submit c now).run s)) ∨
      (¬(Session.submit c now).Appends s ∧ (Request.submit c now).run s = s) := by
  cases hsubmit : Session.submit c now s with
  | error e u =>
    have hfails := Session.transaction_of_eq_error hsubmit
    refine .inr ⟨?_, ?_⟩
    · rintro ⟨r, s', happends⟩
      rw [hfails] at happends
      cases happends
    · exact (Session.commit_cases (Session.submit c now) s).resolve_right (by simp [hsubmit])
  | ok out u =>
    have hrun : (Request.submit c now).run s = u := Session.commit_of_eq_ok hsubmit
    have hanswers := Session.transaction_of_eq_ok hsubmit
    cases out with
    | appended r =>
      obtain ⟨-, -, -, rfl, t, ht, -, hrec⟩ := Session.submit_eq_appended_iff.mp hsubmit
      rw [(ht.agrees hhead).1] at hrec
      exact .inl ⟨⟨_, u, hanswers⟩, s.nextPosition, hrun ▸ hrec⟩
    | existing r =>
      refine .inr ⟨?_, hrun.trans ?_⟩
      · rintro ⟨r', s', happends⟩
        rw [hanswers] at happends
        cases happends
      · obtain ⟨-, ⟨-, -, -, -, rfl⟩ | ⟨-, -, t, ht, ⟨-, -, -, -, -, -, rfl⟩ | ⟨-, hout, -⟩⟩⟩ :=
          Session.submit_eq_ok_iff.mp hsubmit
        · rfl
        · exact (ht.agrees hhead).1
        · cases hout

/-- The submissions that would be recorded if they came first. -/
def recorded (s : Store) (cs : List Submission) : List Submission :=
  cs.filter fun c => (Session.submit c 0).Appends s

theorem Grown.run_submit (hgrown : s.Grown t c.key cs) (ht : t.Sound)
    (halike : (Session.submit c 0).Alike s (Session.submit c now) t) :
    s.Grown ((Request.submit c now).run t) c.key (cs ++ s.recorded [c]) := by
  obtain ⟨-, head', -, hhead', -, -⟩ := hgrown.head
  have hsame : (Session.submit c now).Appends t ↔ (Session.submit c 0).Appends s := by
    rw [Session.appends_iff_exists_answer, Session.appends_iff_exists_answer, ← halike]
  rcases ht.run_submit_cases hhead' now with ⟨happends, pos, hrec⟩ | ⟨hnot, hunchanged⟩
  · rw [hsame] at happends
    rw [recorded, List.filter_cons_of_pos (by simpa using happends)]
    exact hgrown.of_records hrec
  · rw [hsame] at hnot
    rw [recorded, List.filter_cons_of_neg (by simpa using hnot), hunchanged, List.filter_nil,
      List.append_nil]
    exact hgrown

/-! ## All submissions -/

/-- After any updates, the events of those are on record that would have been recorded had they
come first, and each was answered as if it had. -/
theorem Sound.grown_arrivals (hs : s.Sound) (hcounted : s.Counted)
    (hhead : s.head key = .ok (some head)) (hupdates : Updates key (batch.map Prod.fst))
    (hsize : (s.after (arrivals batch)).size < 2 ^ 63 - 1) :
    s.Grown (s.after (arrivals batch)) key (s.recorded (batch.map Prod.fst)) ∧
      s.answers batch = (batch.map Prod.fst).map fun c =>
        (c, ((Session.submit c 0).answer s).map Outcome.unplaced) := by
  induction batch using List.reverseRecOn with
  | nil => exact ⟨.refl hhead, rfl⟩
  | append_singleton batch x ih =>
    obtain ⟨c, now⟩ := x
    have hall : s.after (arrivals (batch ++ [(c, now)])) =
        (Request.submit c now).run (s.after (arrivals batch)) := by
      rw [arrivals, List.map_append, after_append]
      rfl
    rw [hall] at hsize ⊢
    have hbefore := size_le_size_run (.submit c now) (s.after (arrivals batch))
    rw [List.map_append] at hupdates ⊢
    obtain ⟨hgrown, hanswers⟩ := ih (hupdates.sublist (List.sublist_append_left _ _)) (by omega)
    have hlater : Updates key (s.recorded (batch.map Prod.fst) ++ [c]) :=
      hupdates.sublist (List.filter_sublist.append_right _)
    have halike := hgrown.alike hs (hs.after _) hcounted (hcounted.after _ (by omega)) (by omega)
      hlater 0 now
    constructor
    · obtain rfl : c.key = key := hupdates.key c (List.mem_append_right _ List.mem_cons_self)
      rw [recorded, List.filter_append]
      exact hgrown.run_submit (hs.after _) halike
    · rw [answers_append, hanswers, List.map_append, answers, answers, ← halike]
      rfl

/-! ## Timelines -/

theorem map_unplaced_event_row (e : Event) :
    e.unplaced.row.event.map Event.unplaced = e.row.event.map Event.unplaced := by
  cases hpayload : Payload.parse e.payload.text with
  | error fault =>
    rw [Event.event_row_of_parse_eq_error hpayload,
      Event.event_row_of_parse_eq_error (e := e.unplaced) hpayload]
  | ok p =>
    rw [Event.event_row_eq_ok_iff.mpr ⟨p, hpayload, rfl⟩,
      Event.event_row_eq_ok_iff (e := e.unplaced).mpr ⟨p, hpayload, rfl⟩]
    rfl

/-- The events of an entity, up to their places and order, are what its rows are read as. -/
theorem Reads.perm_map_unplaced (hs : s.Reads key h) :
    ((h.events.map Event.unplaced).map (Except.ok (ε := RowFault))).Perm
      ((s.ofEntity key).events.map fun row => row.event.map Event.unplaced) := by
  have hrows := readAll_eq_ok_iff.mp hs.events
  have hmap := congrArg (List.map (Except.map Event.unplaced)) hrows
  rw [List.map_map, List.map_map] at hmap
  rw [List.map_map]
  exact (List.Perm.of_eq hmap.symm).trans ((perm_sortBy _ _).map _)

theorem Grown.map_events_ofEntity (hgrown : s.Grown t key cs) (hkey : ∀ c ∈ cs, c.key = key) :
    ((t.ofEntity key).events.map fun row => row.event.map Event.unplaced) =
      ((s.ofEntity key).events.map fun row => row.event.map Event.unplaced) ++
        cs.map fun c => (c.event 0 0).row.event.map Event.unplaced := by
  obtain ⟨es, hevents, hes⟩ := hgrown.events
  have hrows : (es.map Event.row).filter (fun row => row.key == key) = es.map Event.row := by
    rw [List.filter_eq_self]
    intro row hrow
    obtain ⟨e, he, rfl⟩ := List.mem_map.mp hrow
    obtain ⟨c, hc, hce⟩ := exists_submission_of_mem hes he
    have hekey : e.key = c.key := congrArg (fun e : Event => e.key) hce
    exact beq_iff_eq.mpr (hekey.trans (hkey c hc))
  have hread := congrArg (List.map fun e : Event => e.row.event.map Event.unplaced) hes
  rw [List.map_map, List.map_map] at hread
  simp only [ofEntity, hevents, List.filter_append, hrows, List.map_append, List.map_map]
  rw [List.append_right_inj]
  refine Eq.trans ?_ hread
  apply List.map_congr_left
  intro e _
  exact (map_unplaced_event_row e).symm

/-- Two stores that have grown by the same submissions in different order hold the same events of
the entity, up to their places. -/
theorem Grown.perm_events (hgrown : s.Grown t key cs) (hgrown' : s.Grown t' key cs')
    (hreads : t.Reads key h) (hreads' : t'.Reads key h') (hcs : ∀ c ∈ cs, c.key = key)
    (hperm : cs.Perm cs') :
    (h.events.map Event.unplaced).Perm (h'.events.map Event.unplaced) := by
  have hcs' : ∀ c ∈ cs', c.key = key := fun c hc => hcs c (hperm.mem_iff.mpr hc)
  have hrows := hreads.perm_map_unplaced
  have hrows' := hreads'.perm_map_unplaced
  rw [hgrown.map_events_ofEntity hcs] at hrows
  rw [hgrown'.map_events_ofEntity hcs'] at hrows'
  have hinj : Function.Injective (Except.ok (ε := RowFault) (α := Event)) :=
    fun _ _ h => Except.ok.inj h
  exact (List.map_perm_map_iff hinj).mp
    (hrows.trans (((hperm.map _).append_left _).trans hrows'.symm))

/-- Two stores that have grown by the same submissions in different order hold the same timeline of
the entity. -/
theorem Grown.exists_heads_of_perm (hgrown : s.Grown t key cs) (hgrown' : s.Grown t' key cs')
    (hs : s.Sound) (ht : t.Sound) (ht' : t'.Sound) (hcs : ∀ c ∈ cs, c.key = key)
    (hperm : cs.Perm cs') :
    ∃ row row', (t.ofEntity key).heads = [row] ∧ (t'.ofEntity key).heads = [row'] ∧
      row.versionCount = row'.versionCount ∧ row.digest = row'.digest ∧
      (t.ofEntity key).versions = (t'.ofEntity key).versions := by
  obtain ⟨head₀, head₁, hhead₀, hhead₁, -, -⟩ := hgrown.head
  obtain ⟨-, head₂, -, hhead₂, -, -⟩ := hgrown'.head
  obtain ⟨h, hregistered⟩ := hs.exists_registered hhead₀
  obtain ⟨h₁, hwf, row, timeline, -, hcoherent⟩ := ht.exists_registered hhead₁
  obtain ⟨h₂, -, row', timeline', -, hcoherent'⟩ := ht'.exists_registered hhead₂
  have hreads := hregistered.reads
  have hreplay : timeline = timeline' := by
    have hreplayed := hcoherent.replayed
    have hreplayed' := hcoherent'.replayed
    rw [hgrown.corrections_eq hreads hcoherent.reads, hgrown.rescinds_eq hreads hcoherent.reads,
      replay_eq_of_perm_unplaced
        (hgrown.perm_events hgrown' hcoherent.reads hcoherent'.reads hcs hperm)
        hwf.eventDates] at hreplayed
    rw [hgrown'.corrections_eq hreads hcoherent'.reads,
      hgrown'.rescinds_eq hreads hcoherent'.reads] at hreplayed'
    exact Except.ok.inj (hreplayed.symm.trans hreplayed')
  subst hreplay
  exact ⟨row, row', hcoherent.heads, hcoherent'.heads,
    hcoherent.versionCount.trans hcoherent'.versionCount.symm,
    hcoherent.digest.trans hcoherent'.digest.symm,
    hcoherent.versions.trans hcoherent'.versions.symm⟩

/-- In every store that a run reaches, updates of a registered entity that share no key are each
answered alike in whatever order they arrive, up to the places of new events, and leave the same
stored timeline, count of versions and digest. -/
theorem answers_after_perm (rs : List Request) (key : EntityKey)
    (hregistered : ∃ head, (empty.after rs).head key = .ok (some head))
    (batch batch' : List (Submission × Nat)) (hupdates : Updates key (batch.map Prod.fst))
    (hperm : (batch.map Prod.fst).Perm (batch'.map Prod.fst))
    (hsize : ((empty.after rs).after (arrivals batch)).size < 2 ^ 63 - 1)
    (hsize' : ((empty.after rs).after (arrivals batch')).size < 2 ^ 63 - 1) :
    ((empty.after rs).answers batch).Perm ((empty.after rs).answers batch') ∧
    ∃ row row',
      (((empty.after rs).after (arrivals batch)).ofEntity key).heads = [row] ∧
      (((empty.after rs).after (arrivals batch')).ofEntity key).heads = [row'] ∧
      row.versionCount = row'.versionCount ∧ row.digest = row'.digest ∧
      (((empty.after rs).after (arrivals batch)).ofEntity key).versions =
        (((empty.after rs).after (arrivals batch')).ofEntity key).versions := by
  obtain ⟨head, hhead⟩ := hregistered
  have hs := sound_after rs
  have hcounted : (empty.after rs).Counted := by
    apply counted_after
    have hle := size_le_size_after (empty.after rs) (arrivals batch)
    omega
  obtain ⟨hgrown, hanswers⟩ := hs.grown_arrivals hcounted hhead hupdates hsize
  obtain ⟨hgrown', hanswers'⟩ := hs.grown_arrivals hcounted hhead (hupdates.perm hperm) hsize'
  constructor
  · rw [hanswers, hanswers']
    exact hperm.map _
  · refine hgrown.exists_heads_of_perm hgrown' hs (hs.after _) (hs.after _) ?_ (hperm.filter _)
    intro c hc
    exact hupdates.key c (List.mem_filter.mp hc).1

end Store

namespace Sample

/-- Another change of the assignment, on an earlier date. -/
def moved : Submission :=
  { updated with
    id := "e-3"
    date := ⟨2024, 2, 1, by decide⟩
    submission := "s-3" }

end Sample

namespace Store

theorem answers_after_perm_sample :
    (Session.submit Sample.moved 3).Appends (empty.after [.submit Sample.created 1]) ∧
    ((empty.after [.submit Sample.created 1]).answers
        [(Sample.updated, 2), (Sample.moved, 3)]).Perm
      ((empty.after [.submit Sample.created 1]).answers
        [(Sample.moved, 5), (Sample.updated, 6)]) := by
  have hcreated : (Session.submit Sample.created 1).Appends empty := by decide +kernel
  obtain ⟨r, s, h⟩ := hcreated
  have happended := Session.transaction_eq_ok_iff.mp h
  obtain ⟨head, hhead, -⟩ := sound_empty.identified happended
  rw [← after_submit_of_eq_ok happended] at hhead
  have hsize (batch : List (Submission × Nat)) (hbatch : batch.length ≤ 2) :
      ((empty.after [.submit Sample.created 1]).after (arrivals batch)).size < 2 ^ 63 - 1 := by
    have hle := size_after_le (s := empty) (.submit Sample.created 1 :: arrivals batch)
    have hempty : empty.size = 0 := rfl
    rw [List.length_cons, arrivals, List.length_map] at hle
    exact Nat.lt_of_le_of_lt hle (by omega)
  refine ⟨by decide +kernel, ?_⟩
  exact (answers_after_perm [.submit Sample.created 1] Sample.key ⟨head, hhead⟩
    [(Sample.updated, 2), (Sample.moved, 3)] [(Sample.moved, 5), (Sample.updated, 6)]
    ⟨by decide +kernel, by decide +kernel, by decide +kernel, by decide +kernel, by decide +kernel⟩
    (.swap _ _ _) (hsize _ (Nat.le_refl 2)) (hsize _ (Nat.le_refl 2))).1

end Store

end DatedLedger

import DatedLedger.Proofs.Timeline.Lawful
import Mathlib.Data.List.Nodup

/-!
# Histories of one entity

A history is what the three logs hold about one entity.  In a well-formed one a
single event creates the entity, before all others and for good.  Whether such a
history can be replayed is a condition on its entries one by one, so that the order
in which they are listed plays no part.
-/

namespace DatedLedger

/-! ## Replay of a list of events -/

namespace Replay

theorem key_of_mem_stitch {key : EntityKey} {n : Nat} {steps : List Step} {v : Version}
    (hv : v ∈ stitch key n steps) : v.key = key := by
  induction steps generalizing n with
  | nil => simp [stitch] at hv
  | cons step rest ih =>
    rw [stitch, List.mem_cons] at hv
    rcases hv with rfl | hv
    · rfl
    · exact ih hv

theorem map_seqNo_stitch (key : EntityKey) (n : Nat) (steps : List Step) :
    (stitch key n steps).map Version.seqNo =
      (List.range' n steps.length).map fun i => min i lastSeqNo := by
  induction steps generalizing n with
  | nil => rfl
  | cons step rest ih => simp [stitch, List.range'_succ, ih]

/-- Versions are numbered from one on as long as there are no more than there are numbers. -/
theorem map_seqNo_stitch_of_le (key : EntityKey) {steps : List Step}
    (h : steps.length ≤ lastSeqNo) :
    (stitch key 1 steps).map Version.seqNo = List.range' 1 steps.length := by
  have hmin : ∀ i ∈ List.range' 1 steps.length, min i lastSeqNo = i := by
    intro i hi
    have hlt := (List.mem_range'_1.mp hi).2
    omega
  rw [map_seqNo_stitch, List.map_congr_left hmin, List.map_id']

/-- Versions have numbers of their own as long as there are no more than there are numbers. -/
theorem nodup_seqNo_stitch_iff (key : EntityKey) (steps : List Step) :
    ((stitch key 1 steps).map Version.seqNo).Nodup ↔ steps.length ≤ lastSeqNo := by
  constructor
  · intro hnodup
    rw [map_seqNo_stitch] at hnodup
    by_contra hlength
    -- The last two numbers are both the greatest one.
    have hlast : lastSeqNo ∈ List.range' 1 steps.length := by
      rw [List.mem_range'_1, lastSeqNo] at *
      omega
    have hnext : lastSeqNo + 1 ∈ List.range' 1 steps.length := by
      rw [List.mem_range'_1, lastSeqNo] at *
      omega
    have hsame := List.inj_on_of_nodup_map hnodup hlast hnext (by simp)
    omega
  · intro hlength
    rw [map_seqNo_stitch_of_le key hlength]
    exact List.nodup_range'

theorem collapse_sublist (steps : List Step) : (collapse steps).Sublist steps := by
  fun_induction collapse steps with
  | case1 => exact .slnil
  | case2 s => exact .refl _
  | case3 s t rest hdate ih => exact ih.cons s
  | case4 s t rest hdate ih => exact ih.cons_cons s

end Replay

theorem replay_eq_ok_iff {key : EntityKey} {events : List Event} {corrections rescinds : List Entry}
    {timeline : Timeline} :
    replay key events corrections rescinds = .ok timeline ↔
      ∃ steps, Replay.steps key corrections none (Replay.survivors events rescinds) = .ok steps ∧
        timeline = Replay.stitch key 1 (Replay.collapse steps) := by
  rw [replay]
  cases Replay.steps key corrections none (Replay.survivors events rescinds) with
  | error e => simp [bind, Except.bind]
  | ok steps => simp [bind, Except.bind, eq_comm]

theorem exists_replay_iff (key : EntityKey) {events : List Event}
    {corrections rescinds : List Entry} :
    (∃ timeline, replay key events corrections rescinds = .ok timeline) ↔
      Replay.Lawful corrections (Replay.survivors events rescinds) := by
  rw [← Replay.exists_steps_iff key]
  constructor
  · rintro ⟨timeline, h⟩
    obtain ⟨steps, hsteps, -⟩ := replay_eq_ok_iff.mp h
    exact ⟨steps, hsteps⟩
  · rintro ⟨steps, hsteps⟩
    exact ⟨_, replay_eq_ok_iff.mpr ⟨steps, hsteps, rfl⟩⟩

theorem key_of_mem_replay {key : EntityKey} {events : List Event}
    {corrections rescinds : List Entry} {timeline : Timeline}
    (h : replay key events corrections rescinds = .ok timeline)
    {v : Version} (hv : v ∈ timeline) : v.key = key := by
  obtain ⟨steps, -, rfl⟩ := replay_eq_ok_iff.mp h
  exact Replay.key_of_mem_stitch hv

/-- What the three logs hold about one entity. -/
structure History where
  events : List Event
  corrections : List Entry
  rescinds : List Entry

namespace History

variable {h h' : History} {first e : Event} {kind : EntityKind}

/-- The history without entries. -/
def empty : History := ⟨[], [], []⟩

/-- A history with one more entry. -/
def add (h : History) : AuditEntry → History
  | .event e => { h with events := e :: h.events }
  | .correction c => { h with corrections := c :: h.corrections }
  | .rescind r => { h with rescinds := r :: h.rescinds }

/-- The entries in one log, without what only events have. -/
def entries (h : History) : Log → List Entry
  | .events => h.events.map Event.toEntry
  | .corrections => h.corrections
  | .rescinds => h.rescinds

/-- The places of all entries in the append order. -/
def positions (h : History) : List Position :=
  h.events.map (fun e => e.pos) ++ (h.corrections ++ h.rescinds).map fun e => e.pos

/-- The same entries, listed in another order. -/
structure Perm (h h' : History) : Prop where
  events : h.events.Perm h'.events
  corrections : h.corrections.Perm h'.corrections
  rescinds : h.rescinds.Perm h'.rescinds

theorem Perm.symm {h h' : History} (hperm : h.Perm h') : h'.Perm h :=
  ⟨hperm.events.symm, hperm.corrections.symm, hperm.rescinds.symm⟩

theorem Perm.trans {h h' h'' : History} (hperm : h.Perm h') (hperm' : h'.Perm h'') : h.Perm h'' :=
  ⟨hperm.events.trans hperm'.events, hperm.corrections.trans hperm'.corrections,
    hperm.rescinds.trans hperm'.rescinds⟩

/-- One event creates the entity, before all others, and is not rescinded. -/
structure FoundedBy (h : History) (first : Event) : Prop where
  type : first.type = .create
  others : ∃ rest, h.events.Perm (first :: rest) ∧
    ∀ e ∈ rest, e.type = .update ∧ first.date < e.date
  kept : ∀ r ∈ h.rescinds, r.date ≠ first.date

/-- One event founds the entity, and all are of its kind.  In each log a date occurs once, and
corrections and rescinds are about dates of events. -/
structure WellFormed (h : History) (kind : EntityKind) : Prop where
  founded : ∃ first, h.FoundedBy first
  kinds : ∀ e ∈ h.events, e.kind = kind
  eventDates : (h.events.map fun e => e.date).Nodup
  correctionDates : (h.corrections.map fun c => c.date).Nodup
  rescindDates : (h.rescinds.map fun r => r.date).Nodup
  corrected : ∀ c ∈ h.corrections, ∃ e ∈ h.events, e.date = c.date
  rescinded : ∀ r ∈ h.rescinds, ∃ e ∈ h.events, e.date = r.date

theorem mem_positions_iff {p : Position} :
    p ∈ h.positions ↔ ∃ log, ∃ e ∈ h.entries log, e.pos = p := by
  rw [positions, List.map_append, List.mem_append, List.mem_append]
  constructor
  · rintro (hp | hp | hp)
    · obtain ⟨e, he, rfl⟩ := List.mem_map.mp hp
      exact ⟨.events, e.toEntry, List.mem_map_of_mem he, rfl⟩
    · exact ⟨.corrections, List.mem_map.mp hp⟩
    · exact ⟨.rescinds, List.mem_map.mp hp⟩
  · rintro ⟨log, e, he, rfl⟩
    cases log with
    | events =>
      obtain ⟨x, hx, rfl⟩ := List.mem_map.mp he
      exact .inl (List.mem_map.mpr ⟨x, hx, rfl⟩)
    | corrections => exact .inr (.inl (List.mem_map.mpr ⟨e, he, rfl⟩))
    | rescinds => exact .inr (.inr (List.mem_map.mpr ⟨e, he, rfl⟩))

/-! ## The first event -/

theorem FoundedBy.mem (hfirst : h.FoundedBy first) : first ∈ h.events := by
  obtain ⟨rest, hperm, -⟩ := hfirst.others
  exact hperm.mem_iff.mpr List.mem_cons_self

theorem WellFormed.positions_ne_nil (hwf : h.WellFormed kind) : h.positions ≠ [] := by
  obtain ⟨first, hfirst⟩ := hwf.founded
  have hmem : first.pos ∈ h.positions :=
    List.mem_append_left _ (List.mem_map_of_mem hfirst.mem)
  exact List.ne_nil_of_mem hmem

theorem FoundedBy.eq_or_later (hfirst : h.FoundedBy first) (he : e ∈ h.events) :
    e = first ∨ (e.type = .update ∧ first.date < e.date) := by
  obtain ⟨rest, hperm, hrest⟩ := hfirst.others
  rcases List.mem_cons.mp (hperm.mem_iff.mp he) with rfl | he
  · exact .inl rfl
  · exact .inr (hrest e he)

theorem FoundedBy.of_perm (hfirst : h.FoundedBy first) (hperm : h'.Perm h) :
    h'.FoundedBy first := by
  obtain ⟨rest, hrest, hlater⟩ := hfirst.others
  refine ⟨hfirst.type, ⟨rest, hperm.events.trans hrest, hlater⟩, ?_⟩
  intro r hr
  exact hfirst.kept r (hperm.rescinds.mem_iff.mp hr)

/-- The event that founds an entity is the first one that counts. -/
theorem FoundedBy.survivors_eq_cons (hfirst : h.FoundedBy first) :
    ∃ later, Replay.survivors h.events h.rescinds = first :: later ∧
      ∀ e, e ∈ later ↔
        e ∈ h.events ∧ first.date < e.date ∧ ∀ r ∈ h.rescinds, r.date ≠ e.date := by
  obtain ⟨rest, hperm, hrest⟩ := hfirst.others
  have hkept : (!Replay.isRescinded h.rescinds first.date) = true := by
    simpa [Replay.isRescinded] using hfirst.kept
  have hsurvivors : (Replay.survivors h.events h.rescinds).Perm
      (first :: rest.filter fun e => !Replay.isRescinded h.rescinds e.date) := by
    have hfilter := hperm.filter fun e => !Replay.isRescinded h.rescinds e.date
    rw [List.filter_cons_of_pos (by exact hkept)] at hfilter
    exact (perm_sortBy Replay.before _).trans hfilter
  obtain ⟨later, hlater, hperm'⟩ := Replay.exists_eq_cons_of_perm
    (Replay.pairwise_survivors h.events h.rescinds) hsurvivors
    fun e he => (hrest e (List.mem_filter.mp he).1).2
  refine ⟨later, hlater, ?_⟩
  intro e
  rw [hperm'.mem_iff, List.mem_filter, hperm.mem_iff, List.mem_cons]
  constructor
  · rintro ⟨he, hcounts⟩
    refine ⟨.inr he, (hrest e he).2, ?_⟩
    simpa [Replay.isRescinded] using hcounts
  · rintro ⟨he, hdate, hcounts⟩
    rcases he with rfl | he
    · exact absurd hdate (lt_irrefl _)
    · exact ⟨he, by simpa [Replay.isRescinded] using hcounts⟩

/-! ## Replay entry by entry -/

/-- The rules hold for the first event, and each later one that counts is permitted by them. -/
structure Obeys (h : History) (first : Event) : Prop where
  founding : first.kind.violation? (Replay.effectivePayload h.corrections first).withoutNulls = none
  later : ∀ e ∈ h.events, first.date < e.date → (∀ r ∈ h.rescinds, r.date ≠ e.date) →
    e.kind = first.kind ∧ first.kind.Permits (Replay.effectivePayload h.corrections e)

/-- A founded history can be replayed exactly when it obeys the rules. -/
theorem FoundedBy.lawful_iff (hfirst : h.FoundedBy first) :
    Replay.Lawful h.corrections (Replay.survivors h.events h.rescinds) ↔ h.Obeys first := by
  obtain ⟨later, hsurvivors, hlater⟩ := hfirst.survivors_eq_cons
  rw [hsurvivors, Replay.Lawful]
  constructor
  · rintro ⟨-, hviolation, hrest⟩
    refine ⟨hviolation, ?_⟩
    intro e he hdate hcounts
    obtain ⟨hkind, -, hpermits⟩ := hrest e ((hlater e).mpr ⟨he, hdate, hcounts⟩)
    exact ⟨hkind, hpermits⟩
  · intro hobeys
    refine ⟨hfirst.type, hobeys.founding, ?_⟩
    intro e he
    obtain ⟨he, hdate, hcounts⟩ := (hlater e).mp he
    obtain ⟨hkind, hpermits⟩ := hobeys.later e he hdate hcounts
    rcases hfirst.eq_or_later he with rfl | ⟨htype, -⟩
    · exact absurd hdate (lt_irrefl _)
    · exact ⟨hkind, htype, hpermits⟩

/-- An event on a new date fits into a founded history only as a later update. -/
theorem FoundedBy.later_of_lawful (hfirst : h.FoundedBy first) {events : List Event}
    {corrections : List Entry} (hperm : events.Perm (e :: h.events))
    (hdate : ∀ x ∈ h.events, x.date ≠ e.date) (hcounts : ∀ r ∈ h.rescinds, r.date ≠ e.date)
    (hlawful : Replay.Lawful corrections (Replay.survivors events h.rescinds)) :
    e.type = .update ∧ first.date < e.date := by
  have he : e ∈ Replay.survivors events h.rescinds :=
    Replay.mem_survivors_iff.mpr ⟨hperm.mem_iff.mpr List.mem_cons_self, hcounts⟩
  have hmem : first ∈ Replay.survivors events h.rescinds := by
    refine Replay.mem_survivors_iff.mpr ⟨?_, hfirst.kept⟩
    exact hperm.mem_iff.mpr (List.mem_cons_of_mem e hfirst.mem)
  have hsorted := Replay.pairwise_survivors events h.rescinds
  cases hsurvivors : Replay.survivors events h.rescinds with
  | nil =>
    rw [hsurvivors] at he
    simp at he
  | cons m later =>
    rw [hsurvivors] at he hmem hsorted hlawful
    obtain ⟨-, -, hlater⟩ := hlawful
    -- Only the head of a lawful list creates, so the founding event is that head.
    have hm : first = m := by
      rcases List.mem_cons.mp hmem with hm | hm
      · exact hm
      · have htype := (hlater first hm).2.1
        rw [hfirst.type] at htype
        cases htype
    have hne := hdate first hfirst.mem
    rcases List.mem_cons.mp he with hem | hem
    · rw [hem, ← hm] at hne
      exact absurd rfl hne
    · refine ⟨(hlater e hem).2.1, ?_⟩
      have hbefore := List.rel_of_pairwise_cons hsorted hem
      rw [← hm, Replay.before_iff] at hbefore
      rcases hbefore with hlt | ⟨heq, -⟩
      · exact hlt
      · exact absurd heq hne

/-! ## Adding entries to a well-formed history -/

theorem WellFormed.of_perm (hwf : h.WellFormed kind) (hperm : h'.Perm h) :
    h'.WellFormed kind := by
  obtain ⟨first, hfirst⟩ := hwf.founded
  have hmem : ∀ x, x ∈ h'.events ↔ x ∈ h.events := fun _ => hperm.events.mem_iff
  refine ⟨⟨first, hfirst.of_perm hperm⟩, ?_, ?_, ?_, ?_, ?_, ?_⟩
  · intro e he
    exact hwf.kinds e ((hmem e).mp he)
  · exact ((hperm.events.map _).nodup_iff).mpr hwf.eventDates
  · exact ((hperm.corrections.map _).nodup_iff).mpr hwf.correctionDates
  · exact ((hperm.rescinds.map _).nodup_iff).mpr hwf.rescindDates
  · intro c hc
    obtain ⟨e, he, hdate⟩ := hwf.corrected c (hperm.corrections.mem_iff.mp hc)
    exact ⟨e, (hmem e).mpr he, hdate⟩
  · intro r hr
    obtain ⟨e, he, hdate⟩ := hwf.rescinded r (hperm.rescinds.mem_iff.mp hr)
    exact ⟨e, (hmem e).mpr he, hdate⟩

theorem wellFormed_create (htype : e.type = .create) :
    (empty.add (.event e)).WellFormed e.kind := by
  refine ⟨⟨e, htype, ⟨[], .refl _, by simp⟩, by simp [add, empty]⟩, ?_, ?_, ?_, ?_, ?_, ?_⟩
  all_goals simp [add, empty]

theorem nodup_date_cons {α : Type} {date : α → Date} {x : α} {xs : List α}
    (hnodup : (xs.map date).Nodup) (hnew : ∀ y ∈ xs, date y ≠ date x) :
    ((x :: xs).map date).Nodup := by
  rw [List.map_cons, List.nodup_cons]
  refine ⟨?_, hnodup⟩
  intro hmem
  obtain ⟨y, hy, heq⟩ := List.mem_map.mp hmem
  exact hnew y hy heq

theorem WellFormed.counts_of_new (hwf : h.WellFormed kind) {date : Date}
    (hdate : ∀ x ∈ h.events, x.date ≠ date) : ∀ r ∈ h.rescinds, r.date ≠ date := by
  intro r hr heq
  obtain ⟨x, hx, hxr⟩ := hwf.rescinded r hr
  exact hdate x hx (hxr.trans heq)

theorem FoundedBy.add_event (hfirst : h.FoundedBy first) (htype : e.type = .update)
    (hlater : first.date < e.date) : (h.add (.event e)).FoundedBy first := by
  obtain ⟨rest, hperm, hrest⟩ := hfirst.others
  refine ⟨hfirst.type, ⟨e :: rest, ?_, ?_⟩, hfirst.kept⟩
  · exact (hperm.cons e).trans (.swap first e rest)
  · exact List.forall_mem_cons.mpr ⟨⟨htype, hlater⟩, hrest⟩

theorem WellFormed.add_event (hwf : h.WellFormed kind) (hfirst : h.FoundedBy first)
    (hkind : e.kind = kind) (hdate : ∀ x ∈ h.events, x.date ≠ e.date) (htype : e.type = .update)
    (hlater : first.date < e.date) : (h.add (.event e)).WellFormed kind where
  founded := ⟨first, hfirst.add_event htype hlater⟩
  kinds := List.forall_mem_cons.mpr ⟨hkind, hwf.kinds⟩
  eventDates := nodup_date_cons hwf.eventDates hdate
  correctionDates := hwf.correctionDates
  rescindDates := hwf.rescindDates
  corrected := by
    intro c hc
    obtain ⟨x, hx, heq⟩ := hwf.corrected c hc
    exact ⟨x, List.mem_cons_of_mem e hx, heq⟩
  rescinded := by
    intro r hr
    obtain ⟨x, hx, heq⟩ := hwf.rescinded r hr
    exact ⟨x, List.mem_cons_of_mem e hx, heq⟩

theorem WellFormed.add_correction (hwf : h.WellFormed kind) {c : Entry}
    (htarget : ∃ x ∈ h.events, x.date = c.date) (hdate : ∀ x ∈ h.corrections, x.date ≠ c.date) :
    (h.add (.correction c)).WellFormed kind where
  founded := by
    obtain ⟨first, hfirst⟩ := hwf.founded
    exact ⟨first, hfirst.type, hfirst.others, hfirst.kept⟩
  kinds := hwf.kinds
  eventDates := hwf.eventDates
  correctionDates := nodup_date_cons hwf.correctionDates hdate
  rescindDates := hwf.rescindDates
  corrected := List.forall_mem_cons.mpr ⟨htarget, hwf.corrected⟩
  rescinded := hwf.rescinded

theorem WellFormed.eq_of_date_eq (hwf : h.WellFormed kind) {x y : Event} (hx : x ∈ h.events)
    (hy : y ∈ h.events) (hdate : x.date = y.date) : x = y :=
  List.inj_on_of_nodup_map hwf.eventDates hx hy hdate

theorem WellFormed.add_rescind (hwf : h.WellFormed kind) {r : Entry} (he : e ∈ h.events)
    (htype : e.type = .update) (htarget : e.date = r.date)
    (hdate : ∀ x ∈ h.rescinds, x.date ≠ r.date) : (h.add (.rescind r)).WellFormed kind where
  founded := by
    obtain ⟨first, hfirst⟩ := hwf.founded
    refine ⟨first, hfirst.type, hfirst.others, ?_⟩
    refine List.forall_mem_cons.mpr ⟨?_, hfirst.kept⟩
    intro heq
    have hsame := hwf.eq_of_date_eq he hfirst.mem (htarget.trans heq)
    rw [hsame, hfirst.type] at htype
    cases htype
  kinds := hwf.kinds
  eventDates := hwf.eventDates
  correctionDates := hwf.correctionDates
  rescindDates := nodup_date_cons hwf.rescindDates hdate
  corrected := hwf.corrected
  rescinded := List.forall_mem_cons.mpr ⟨⟨e, he, htarget⟩, hwf.rescinded⟩

/-! ## Replay after an event was added -/

theorem effectivePayload_of_forall_ne {corrections : List Entry}
    (h : ∀ c ∈ corrections, c.date ≠ e.date) :
    Replay.effectivePayload corrections e = e.payload := by
  have hnone : corrections.reverse.find? (fun c => c.date == e.date) = none := by
    simpa using h
  rw [Replay.effectivePayload, hnone]

theorem WellFormed.effectivePayload_of_new (hwf : h.WellFormed kind)
    (hnew : ∀ x ∈ h.events, x.date ≠ e.date) :
    Replay.effectivePayload h.corrections e = e.payload := by
  apply effectivePayload_of_forall_ne
  intro c hc heq
  obtain ⟨x, hx, hdate⟩ := hwf.corrected c hc
  exact hnew x hx (hdate.trans heq)

/-- A well-formed history can still be replayed with an event on a new date exactly when that event
is a later update of its kind that the rules permit. -/
theorem WellFormed.lawful_add_event_iff (hwf : h.WellFormed kind) (hfirst : h.FoundedBy first)
    (hlawful : Replay.Lawful h.corrections (Replay.survivors h.events h.rescinds))
    (hnew : ∀ x ∈ h.events, x.date ≠ e.date) (hevents : h'.events.Perm (e :: h.events))
    (hcorrections : h'.corrections = h.corrections) (hrescinds : h'.rescinds = h.rescinds) :
    Replay.Lawful h'.corrections (Replay.survivors h'.events h'.rescinds) ↔
      e.type = .update ∧ first.date < e.date ∧ e.kind = kind ∧ kind.Permits e.payload := by
  have hobeys := hfirst.lawful_iff.mp hlawful
  have hcounts := hwf.counts_of_new hnew
  have hpayload := hwf.effectivePayload_of_new hnew
  have hperm : h'.Perm (h.add (.event e)) :=
    ⟨hevents, hcorrections ▸ .refl _, hrescinds ▸ .refl _⟩
  have hkind : first.kind = kind := hwf.kinds first hfirst.mem
  constructor
  · intro hlawful'
    have hlawful'' := hlawful'
    rw [hrescinds] at hlawful''
    obtain ⟨htype, hlater⟩ := hfirst.later_of_lawful hevents hnew hcounts hlawful''
    have hfirst' := (hfirst.add_event htype hlater).of_perm hperm
    have he : e ∈ h'.events := hevents.mem_iff.mpr List.mem_cons_self
    have hpermits := (hfirst'.lawful_iff.mp hlawful').later e he hlater
      (by rw [hrescinds]; exact hcounts)
    rw [hcorrections, hpayload, hkind] at hpermits
    exact ⟨htype, hlater, hpermits⟩
  · rintro ⟨htype, hlater, hekind, hpermits⟩
    have hfirst' := (hfirst.add_event htype hlater).of_perm hperm
    refine hfirst'.lawful_iff.mpr ⟨?_, ?_⟩
    · rw [hcorrections]
      exact hobeys.founding
    · intro x hx hdate hrescinded
      rw [hcorrections]
      rw [hrescinds] at hrescinded
      rcases List.mem_cons.mp (hevents.mem_iff.mp hx) with rfl | hx
      · rw [hpayload, hkind]
        exact ⟨hekind, hpermits⟩
      · exact hobeys.later x hx hdate hrescinded

/-- A single event can be replayed exactly when it creates its entity in a state in order. -/
theorem lawful_singleton_iff :
    Replay.Lawful [] (Replay.survivors [e] []) ↔
      e.type = .create ∧ e.kind.violation? e.payload.withoutNulls = none := by
  have hsurvivors : Replay.survivors [e] [] = [e] := rfl
  rw [hsurvivors, Replay.Lawful, effectivePayload_of_forall_ne (by simp)]
  simp

end History

namespace Sample

/-! ## A sample -/

/-- The payload that gives one attribute a text, or null. -/
def setting (name : String) (value : Option String) : Payload where
  members := [(name, value.elim .null .str)]
  ordered := by
    refine Json.ordered_obj_iff.2 ⟨List.pairwise_singleton _ _, ?_, trivial⟩
    cases value <;> trivial
  shallow := by cases value <;> simp [Json.Value.depth, Json.depthOfMembers, Payload.maxDepth]

/-- A day of January 2024, counted from zero. -/
def day (n : Fin 31) : Date :=
  ⟨2024, 1, n + 1, by revert n; decide⟩

/-- An entry about an assignment. -/
def entryOn (date : Date) (pos : Position) (payload : Payload) : Entry :=
  { pos := pos, id := "", key := ⟨"acme", "desk-7"⟩, date := date, payload := payload,
    submission := "", initiator := "clerk", recordedMs := 0 }

/-- An event of an assignment. -/
def eventOn (date : Date) (pos : Position) (type : EventType) (payload : Payload) : Event :=
  { entryOn date pos payload with kind := .assignment, type := type }

/-- An assignment whose position is corrected.  Two updates share a date, and the last update is
rescinded. -/
def history : History where
  events := [eventOn (day 29) 5 .update (setting "status" (some "inactive")),
    eventOn (day 19) 3 .update (setting "status" (some "leave")),
    eventOn (day 9) 1 .create (setting "position_id" (some "P-1")),
    eventOn (day 19) 2 .update (setting "status" (some "active"))]
  corrections := [entryOn (day 9) 6 (setting "position_id" (some "P-2"))]
  rescinds := [entryOn (day 29) 7 .empty]

theorem exists_replay_history :
    ∃ timeline, replay ⟨"acme", "desk-7"⟩ history.events history.corrections history.rescinds =
      .ok timeline := by
  have hok : (replay ⟨"acme", "desk-7"⟩ history.events history.corrections
    history.rescinds).toBool := by decide +kernel
  cases hreplay : replay ⟨"acme", "desk-7"⟩ history.events history.corrections history.rescinds with
  | ok timeline => exact ⟨timeline, rfl⟩
  | error fault =>
    rw [hreplay] at hok
    cases hok

/-- An assignment with an update to an unknown status before a second creation. -/
def faulty : History where
  events := [eventOn (day 29) 2 .create (setting "position_id" (some "P-2")),
    eventOn (day 19) 3 .update (setting "status" (some "gone")),
    eventOn (day 9) 1 .create (setting "position_id" (some "P-1"))]
  corrections := []
  rescinds := []

end Sample

end DatedLedger

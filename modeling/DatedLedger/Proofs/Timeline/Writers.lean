import DatedLedger.Proofs.Timeline.Counting
import DatedLedger.Proofs.Timeline.Tiling

/-!
# The last word on an attribute

Replay merges payloads into a state, collapses the states of one date, and makes versions
of what is left.  For a single attribute and a single date all this comes to a rule that
mentions no state: of the events that count and have begun by the date, the last one that
mentions the attribute decides it, and null removes it.
-/

namespace DatedLedger

open Payload (overwrite overwrite_overwrite)

namespace Replay

variable {key : EntityKey} {corrections rescinds : List Entry} {events : List Event}
  {steps : List Step} {date : Date} {name : String}

/-! ## An attribute after events -/

/-- What an event with its payload says about an attribute. -/
def mention (corrections : List Entry) (name : String) (e : Event) : Option Json.Value :=
  (effectivePayload corrections e).get? name

theorem get?_apply {current : Option State} {e : Event} {p : Payload} {next : State}
    (h : apply key current e p = .ok next) (name : String) :
    next.attributes.get? name =
      overwrite (current.bind fun state => state.attributes.get? name) (p.get? name) := by
  cases current with
  | none =>
    obtain ⟨-, -, rfl⟩ := apply_none_eq_ok_iff.mp h
    rw [← Payload.empty_merge]
    exact Payload.get?_merge .empty p name
  | some state =>
    obtain ⟨-, -, -, rfl⟩ := apply_some_eq_ok_iff.mp h
    exact Payload.get?_merge state.attributes p name

/-- After a list of events the last of them that mentions an attribute has decided it. -/
theorem get?_getLast?_steps {current : Option State}
    (h : Replay.steps key corrections current events = .ok steps) {s : Step}
    (hs : steps.getLast? = some s) (name : String) :
    s.attributes.get? name =
      overwrite (current.bind fun state => state.attributes.get? name)
        (events.reverse.findSome? (mention corrections name)) := by
  induction events generalizing current steps with
  | nil =>
    cases h
    cases hs
  | cons e rest ih =>
    obtain ⟨next, later, happly, hlater, rfl⟩ := steps_cons_eq_ok_iff.mp h
    have hnext := get?_apply happly name
    rw [List.reverse_cons, List.findSome?_append, ← overwrite_overwrite]
    have hfirst : [e].findSome? (mention corrections name) = mention corrections name e := by
      simp
    rw [hfirst, mention, ← hnext]
    rw [List.getLast?_cons, Option.some.injEq] at hs
    cases hlast : later.getLast? with
    | some t =>
      rw [hlast, Option.getD_some] at hs
      exact ih hlater (hs ▸ hlast)
    | none =>
      -- The first event is the only one, so that its state is the last.
      have hnil : later = [] := List.getLast?_eq_none_iff.mp hlast
      have hlength := length_steps hlater
      rw [hnil] at hlength
      have hrest : rest = [] := List.length_eq_zero_iff.mp hlength.symm
      rw [hlast, Option.getD_none] at hs
      rw [hrest, ← hs]
      rfl

/-! ## Versions of a date -/

theorem getLast?_filter_collapse (p : Date → Bool) (steps : List Step) :
    ((collapse steps).filter fun s => p s.date).getLast? =
      (steps.filter fun s => p s.date).getLast? := by
  fun_induction collapse steps with
  | case1 => rfl
  | case2 s => rfl
  | case3 s t rest hdate ih =>
    -- A step that is dropped satisfies the condition together with the one that replaces it.
    rw [ih, List.filter_cons (x := s)]
    split
    next hp =>
      rw [List.filter_cons_of_pos (by rwa [hdate] at hp), List.getLast?_cons_cons]
    next => rfl
  | case4 s t rest hdate ih =>
    rw [List.filter_cons, List.filter_cons (x := s)]
    split
    next => rw [List.getLast?_cons, List.getLast?_cons, ih]
    next => exact ih

/-- The attributes in effect on a date are those after the events that have begun by then. -/
theorem exists_steps_asOf? {timeline : Timeline}
    (h : replay key events corrections rescinds = .ok timeline) (date : Date) :
    ∃ begun, Replay.steps key corrections none
        ((survivors events rescinds).filter fun e => e.date ≤ date) = .ok begun ∧
      (timeline.asOf? date).map Version.attributes = begun.getLast?.map Step.attributes := by
  have hasOf := asOf?_eq_getLast? h date
  obtain ⟨steps, hsteps, rfl⟩ := replay_eq_ok_iff.mp h
  obtain ⟨begun, later, rfl, hbegun, hbegunDates, hlaterDates⟩ := exists_steps_of_filter
    (fun d => d ≤ date) (fun a b hle hdate => by simpa using hle.trans (of_decide_eq_true hdate))
    hsteps
  refine ⟨begun, hbegun, ?_⟩
  have hbegunFilter : begun.filter (fun s => s.date ≤ date) = begun :=
    List.filter_eq_self.mpr hbegunDates
  have hlaterFilter : later.filter (fun s => s.date ≤ date) = [] :=
    List.filter_eq_nil_iff.mpr hlaterDates
  have hversions := map_filter_eq_of_map_eq
    (map_validFrom_attributes_stitch key 1 (collapse (begun ++ later)))
    (p := fun v => decide (v.validFrom ≤ date)) (q := fun s => decide (s.date ≤ date))
    (fun v _ s _ hsame => by rw [(Prod.mk.inj hsame).1])
  have hlast := congrArg List.getLast? hversions
  rw [List.getLast?_map, List.getLast?_map, getLast?_filter_collapse (fun d => d ≤ date),
    List.filter_append, hbegunFilter, hlaterFilter, List.append_nil] at hlast
  have hattributes := congrArg (Option.map Prod.snd) hlast
  rw [Option.map_map, Option.map_map] at hattributes
  rw [hasOf]
  exact hattributes

end Replay

namespace History

variable {h : History} {date : Date} {name : String} {e : Event} {v : Json.Value}

/-! ## The event that decides an attribute -/

/-- An event that counts and has begun by the date gives the attribute a value, or null. -/
structure Mentions (h : History) (date : Date) (name : String) (e : Event) (v : Json.Value) :
    Prop where
  counts : h.Counts e
  begun : e.date ≤ date
  value : ∃ p, h.Sets e p ∧ p.get? name = some v

/-- Of the events that mention the attribute by the date, none comes after this one. -/
structure Decides (h : History) (date : Date) (name : String) (e : Event) (v : Json.Value) : Prop
    extends h.Mentions date name e v where
  last : ∀ x w, h.Mentions date name x w → ¬e.Precedes x

/-- The events that count and have begun by a date, in order. -/
def begun (h : History) (date : Date) : List Event :=
  (Replay.survivors h.events h.rescinds).filter fun e => e.date ≤ date

theorem mem_begun_iff : e ∈ h.begun date ↔ h.Counts e ∧ e.date ≤ date := by
  rw [begun, List.mem_filter, counts_iff, decide_eq_true_iff]

theorem mentions_iff :
    h.Mentions date name e v ↔
      e ∈ h.begun date ∧ Replay.mention h.corrections name e = some v := by
  rw [mem_begun_iff, Replay.mention]
  constructor
  · rintro ⟨hcounts, hbegun, p, hsets, hvalue⟩
    rw [sets_iff.mp hsets] at hvalue
    exact ⟨⟨hcounts, hbegun⟩, hvalue⟩
  · rintro ⟨⟨hcounts, hbegun⟩, hvalue⟩
    exact ⟨hcounts, hbegun, _, sets_iff.mpr rfl, hvalue⟩

theorem exists_decides_iff (hpos : (h.events.map fun e => e.pos).Nodup) :
    (∃ e, h.Decides date name e v) ↔
      (h.begun date).reverse.findSome? (Replay.mention h.corrections name) = some v := by
  have hsorted : (h.begun date).Pairwise Event.Precedes := (pairwise_precedes hpos).filter _
  rw [findSome?_reverse_eq_some_iff (fun _ _ => Event.Precedes.asymm) hsorted]
  constructor
  · rintro ⟨e, hmentions, hlast⟩
    obtain ⟨hbegun, hvalue⟩ := mentions_iff.mp hmentions
    refine ⟨e, hbegun, hvalue, ?_⟩
    intro x hx hex
    rw [← Option.not_isSome_iff_eq_none, Option.isSome_iff_exists]
    rintro ⟨w, hw⟩
    exact hlast x w (mentions_iff.mpr ⟨hx, hw⟩) hex
  · rintro ⟨e, hbegun, hvalue, hlast⟩
    refine ⟨e, mentions_iff.mpr ⟨hbegun, hvalue⟩, ?_⟩
    intro x w hx hex
    obtain ⟨hxbegun, hxvalue⟩ := mentions_iff.mp hx
    cases (hlast x hxbegun hex).symm.trans hxvalue

theorem forall_not_mentions_iff :
    (∀ e v, ¬h.Mentions date name e v) ↔
      (h.begun date).reverse.findSome? (Replay.mention h.corrections name) = none := by
  rw [List.findSome?_eq_none_iff]
  constructor
  · intro hnone e he
    rw [← Option.not_isSome_iff_eq_none, Option.isSome_iff_exists]
    rintro ⟨v, hv⟩
    exact hnone e v (mentions_iff.mpr ⟨List.mem_reverse.mp he, hv⟩)
  · intro hnone e v hmentions
    obtain ⟨he, hv⟩ := mentions_iff.mp hmentions
    cases (hnone e (List.mem_reverse.mpr he)).symm.trans hv

/-! ## Attributes of a replayed timeline -/

/-- A version is in effect on a date exactly when an event that counts has begun by then.  It has
the attributes that the last events to mention them have given a value, and no others. -/
theorem attribute_asOf?_iff_decides (h : History) (key : EntityKey) (timeline : Timeline)
    (hreplay : replay key h.events h.corrections h.rescinds = .ok timeline)
    (hpos : (h.events.map fun e => e.pos).Nodup) (date : Date) :
    ((∃ version, timeline.asOf? date = some version) ↔ ∃ e, h.Counts e ∧ e.date ≤ date) ∧
      ∀ version, timeline.asOf? date = some version → ∀ name,
        (∀ v, version.attributes.get? name = some v ↔ v ≠ .null ∧ ∃ e, h.Decides date name e v) ∧
        (version.attributes.get? name = none ↔
          (∀ e v, ¬h.Mentions date name e v) ∨ ∃ e, h.Decides date name e .null) := by
  obtain ⟨steps, hsteps, hattributes⟩ := Replay.exists_steps_asOf? hreplay date
  constructor
  · have hlength := Replay.length_steps hsteps
    rw [← Option.isSome_iff_exists, ← Option.isSome_map, hattributes, Option.isSome_map,
      List.getLast?_isSome, ← List.length_pos_iff, hlength, List.length_pos_iff_exists_mem]
    exact exists_congr fun _ => mem_begun_iff
  · intro version hversion name
    rw [hversion, Option.map_some] at hattributes
    obtain ⟨s, hs, hsame⟩ := Option.map_eq_some_iff.mp hattributes.symm
    have hvalue : version.attributes.get? name = overwrite none
        ((h.begun date).reverse.findSome? (Replay.mention h.corrections name)) := by
      rw [← hsame]
      exact Replay.get?_getLast?_steps hsteps hs name
    rw [hvalue]
    constructor
    · intro v
      rw [Payload.overwrite_none_eq_some_iff, exists_decides_iff hpos, and_comm]
    · rw [Payload.overwrite_none_eq_none_iff, exists_decides_iff hpos, forall_not_mentions_iff]

/-- Of the two updates of one day in the sample the later one decides. -/
theorem attribute_asOf?_iff_decides_sample :
    ∃ timeline version, replay ⟨"acme", "desk-7"⟩ Sample.history.events Sample.history.corrections
        Sample.history.rescinds = .ok timeline ∧
      timeline.asOf? (Sample.day 30) = some version ∧
      version.attributes.get? "status" = some (.str "leave") := by
  obtain ⟨timeline, hreplay⟩ := Sample.exists_replay_history
  obtain ⟨hbegun, hvalues⟩ := attribute_asOf?_iff_decides Sample.history _ timeline hreplay
    (by decide) (Sample.day 30)
  obtain ⟨e, he⟩ : ∃ e, Sample.history.Decides (Sample.day 30) "status" e (.str "leave") :=
    (exists_decides_iff (by decide)).mpr rfl
  obtain ⟨version, hversion⟩ := hbegun.mpr ⟨e, he.counts, he.begun⟩
  have hvalue := ((hvalues version hversion "status").1 (.str "leave")).mpr ⟨nofun, e, he⟩
  exact ⟨timeline, version, hreplay, hversion, hvalue⟩

end History

end DatedLedger

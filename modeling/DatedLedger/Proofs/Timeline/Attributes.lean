import DatedLedger.Proofs.Json.ReadBack
import DatedLedger.Proofs.Store.Rows
import DatedLedger.Proofs.Timeline.Tiling

/-!
# Numbers in the attributes of versions

The attributes of a version are merged out of payloads of events and corrections, so
what holds of every number in those holds of every number in the attributes.  When
all numbers are read back from their texts, a version of a replayed timeline comes
back from its row as it was stored.
-/

namespace DatedLedger

variable {P : Json.Number → Prop} {key : EntityKey} {events : List Event}
  {corrections rescinds : List Entry} {timeline : Timeline} {v : Version}

namespace Replay

theorem every_effectivePayload {e : Event} (he : e.payload.Every P)
    (hcorrections : ∀ c ∈ corrections, c.payload.Every P) :
    (effectivePayload corrections e).Every P := by
  unfold effectivePayload
  split
  next c hc => exact hcorrections c (List.mem_reverse.mp (List.mem_of_find?_eq_some hc))
  next => exact he

theorem every_apply {current : Option State} {e : Event} {p : Payload} {next : State}
    (h : apply key current e p = .ok next) (hp : p.Every P)
    (hcurrent : ∀ state ∈ current, state.attributes.Every P) : next.attributes.Every P := by
  cases current with
  | none =>
    obtain ⟨-, -, rfl⟩ := apply_none_eq_ok_iff.mp h
    rw [← Payload.empty_merge]
    exact Payload.every_empty.merge hp
  | some state =>
    obtain ⟨-, -, -, rfl⟩ := apply_some_eq_ok_iff.mp h
    exact (hcurrent state rfl).merge hp

theorem every_steps {current : Option State} {result : List Step}
    (h : steps key corrections current events = .ok result)
    (hevents : ∀ e ∈ events, e.payload.Every P)
    (hcorrections : ∀ c ∈ corrections, c.payload.Every P)
    (hcurrent : ∀ state ∈ current, state.attributes.Every P) :
    ∀ s ∈ result, s.attributes.Every P := by
  induction events generalizing current result with
  | nil =>
    cases h
    simp
  | cons e rest ih =>
    obtain ⟨he, hrest⟩ := List.forall_mem_cons.mp hevents
    obtain ⟨next, later, hnext, hlater, rfl⟩ := steps_cons_eq_ok_iff.mp h
    have hattributes := every_apply hnext (every_effectivePayload he hcorrections) hcurrent
    refine List.forall_mem_cons.mpr ⟨hattributes, ih hlater hrest ?_⟩
    intro state hstate
    cases hstate
    exact hattributes

end Replay

theorem every_of_mem_replay (h : replay key events corrections rescinds = .ok timeline)
    (hevents : ∀ e ∈ events, e.payload.Every P)
    (hcorrections : ∀ c ∈ corrections, c.payload.Every P) (hv : v ∈ timeline) :
    v.attributes.Every P := by
  obtain ⟨steps, hsteps, rfl⟩ := replay_eq_ok_iff.mp h
  obtain ⟨⟨s, hs, -, hattributes⟩, -⟩ := Replay.exists_step_of_mem_stitch hv
  rw [hattributes]
  refine Replay.every_steps hsteps ?_ hcorrections (by simp) s
    ((Replay.collapse_sublist steps).mem hs)
  intro e he
  exact hevents e (Replay.mem_survivors_iff.mp he).1

theorem seqNo_le_of_mem_replay (h : replay key events corrections rescinds = .ok timeline)
    (hv : v ∈ timeline) : v.seqNo ≤ Replay.lastSeqNo := by
  obtain ⟨steps, -, rfl⟩ := replay_eq_ok_iff.mp h
  exact (Replay.exists_step_of_mem_stitch hv).2.2

/-- The numbers of the versions never decrease. -/
theorem pairwise_seqNo_replay (h : replay key events corrections rescinds = .ok timeline) :
    timeline.Pairwise fun v w => v.seqNo ≤ w.seqNo := by
  obtain ⟨steps, -, rfl⟩ := replay_eq_ok_iff.mp h
  rw [← List.pairwise_map (f := Version.seqNo), Replay.map_seqNo_stitch, List.pairwise_map]
  apply List.pairwise_le_range'.imp
  intro i j hij
  omega

/-- A version whose numbers are read back from their texts comes back as it was stored. -/
theorem Version.version_row (hseqNo : v.seqNo ≤ Replay.lastSeqNo)
    (hattributes : v.attributes.Steady) : v.row.version = .ok v := by
  have hword : (v.seqNo : Int) < 2 ^ 32 := by
    simp only [Replay.lastSeqNo] at hseqNo
    omega
  have hto : v.row.validTo.mapM readDate = .ok v.validTo := by
    rw [Version.row]
    cases v.validTo with
    | none => rfl
    | some last => simp [Option.mapM_some, readDate_text, Functor.map, Except.map]
  exact VersionRow.version_eq_ok_iff.mpr ⟨⟨Int.natCast_nonneg _, hword⟩, (Int.toNat_natCast _).symm,
    Payload.parse_text hattributes, readDate_text _, hto, rfl⟩

/-- A replayed timeline comes back from its rows when all numbers in its history are read back. -/
theorem version_row_of_mem_replay (h : replay key events corrections rescinds = .ok timeline)
    (hevents : ∀ e ∈ events, e.payload.Steady) (hcorrections : ∀ c ∈ corrections, c.payload.Steady)
    (hv : v ∈ timeline) : v.row.version = .ok v :=
  Version.version_row (seqNo_le_of_mem_replay h hv)
    (every_of_mem_replay h hevents hcorrections hv)

end DatedLedger

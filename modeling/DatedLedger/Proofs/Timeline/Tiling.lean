import DatedLedger.Proofs.Calendar.Order
import DatedLedger.Proofs.Timeline.History

/-!
# Timelines tile the calendar

Replay leaves one step for each date on which an event counts, in the order of the
dates.  Each version lasts until the next begins, so from the first of these dates
on every date lies in exactly one version, and no earlier date lies in any.
-/

namespace DatedLedger

/-! ## Searching where only one element is sought -/

theorem filter_eq_toList_find? {α : Type} {p : α → Bool} {xs : List α}
    (h : xs.Pairwise fun x y => p x → ¬p y) : xs.filter p = (xs.find? p).toList := by
  induction xs with
  | nil => rfl
  | cons x xs ih =>
    obtain ⟨hx, hxs⟩ := List.pairwise_cons.mp h
    by_cases hp : p x
    · have hnone : xs.filter p = [] := by
        rw [List.filter_eq_nil_iff]
        intro y hy
        exact hx y hy hp
      rw [List.filter_cons_of_pos hp, List.find?_cons_of_pos hp, hnone]
      rfl
    · rw [List.filter_cons_of_neg hp, List.find?_cons_of_neg hp, ih hxs]

/-- Elements that are read as others are found where those are. -/
theorem map_filter_eq_of_map_eq {α β γ : Type} {f : α → γ} {g : β → γ} {p : α → Bool}
    {q : β → Bool} {xs : List α} {ys : List β} (h : xs.map f = ys.map g)
    (hpq : ∀ x ∈ xs, ∀ y ∈ ys, f x = g y → p x = q y) :
    (xs.filter p).map f = (ys.filter q).map g := by
  induction xs generalizing ys with
  | nil =>
    rw [List.map_eq_nil_iff.mp h.symm]
    rfl
  | cons x xs ih =>
    cases ys with
    | nil => cases h
    | cons y ys =>
      obtain ⟨hxy, hrest⟩ := List.cons.inj h
      have hfirst := hpq x List.mem_cons_self y List.mem_cons_self hxy
      have hfilter := ih hrest fun a ha b hb =>
        hpq a (List.mem_cons_of_mem x ha) b (List.mem_cons_of_mem y hb)
      rw [List.filter_cons, List.filter_cons, hfirst]
      split
      next => rw [List.map_cons, List.map_cons, hxy, hfilter]
      next => exact hfilter

/-- Where only one element is sought, the order in which the elements are listed plays no part. -/
theorem find?_eq_of_perm {α : Type} {p : α → Bool} {xs ys : List α}
    (h : xs.Pairwise fun x y => p x → ¬p y) (hperm : xs.Perm ys) : xs.find? p = ys.find? p := by
  have hys : ys.Pairwise fun x y => p x → ¬p y :=
    h.perm hperm fun hxy hy hx => hxy hx hy
  have hfilter := hperm.filter p
  rw [filter_eq_toList_find? h, filter_eq_toList_find? hys] at hfilter
  cases hx : xs.find? p with
  | none =>
    rw [hx] at hfilter
    cases hy : ys.find? p with
    | none => rfl
    | some y =>
      rw [hy] at hfilter
      exact absurd hfilter.length_eq (by simp)
  | some x =>
    rw [hx] at hfilter
    have hsome := List.perm_singleton.mp hfilter.symm
    cases hy : ys.find? p with
    | none =>
      rw [hy] at hsome
      cases hsome
    | some y =>
      rw [hy] at hsome
      exact congrArg some (List.singleton_inj.mp hsome).symm

/-- A list in which all that satisfies a condition comes first consists of that and of the rest. -/
theorem filter_append_filter_not {α : Type} {p : α → Bool} {xs : List α}
    (h : xs.Pairwise fun x y => p y → p x) :
    xs.filter p ++ xs.filter (fun x => !p x) = xs := by
  induction xs with
  | nil => rfl
  | cons x xs ih =>
    obtain ⟨hx, hxs⟩ := List.pairwise_cons.mp h
    by_cases hp : p x
    · rw [List.filter_cons_of_pos hp, List.filter_cons_of_neg (by simp [hp]), List.cons_append,
        ih hxs]
    · have hfront : xs.filter p = [] := by
        rw [List.filter_eq_nil_iff]
        intro y hy
        exact mt (hx y hy) hp
      rw [List.filter_cons_of_neg hp, List.filter_cons_of_pos (by simp [hp]), hfront,
        List.nil_append]
      congr 1
      rw [List.filter_eq_self]
      intro y hy
      simpa using mt (hx y hy) hp

namespace Replay

variable {key : EntityKey} {corrections rescinds : List Entry} {steps : List Step} {date : Date}
  {n : Nat}

/-- Every step begins later than those before it. -/
def Increasing (steps : List Step) : Prop :=
  steps.Pairwise fun s t => s.date < t.date

theorem Increasing.nodup_date (h : Increasing steps) : (steps.map Step.date).Nodup := by
  rw [List.Nodup, List.pairwise_map]
  apply h.imp
  intro s t hst
  exact hst.ne

/-! ## Dates of steps -/

theorem map_date_steps {current : Option State} {events : List Event}
    (h : Replay.steps key corrections current events = .ok steps) :
    steps.map Step.date = events.map fun e => e.date := by
  induction events generalizing current steps with
  | nil =>
    cases h
    rfl
  | cons e rest ih =>
    obtain ⟨next, later, -, hlater, rfl⟩ := steps_cons_eq_ok_iff.mp h
    rw [List.map_cons, List.map_cons, ih hlater]

theorem exists_event_of_mem_steps {events : List Event} {current : Option State} {s : Step}
    (h : Replay.steps key corrections current events = .ok steps) (hs : s ∈ steps) :
    ∃ e ∈ events, e.date = s.date := by
  have hmem : s.date ∈ steps.map Step.date := List.mem_map_of_mem hs
  rw [map_date_steps h] at hmem
  exact List.mem_map.mp hmem

theorem mem_map_date_collapse_iff :
    date ∈ (collapse steps).map Step.date ↔ date ∈ steps.map Step.date := by
  fun_induction collapse steps with
  | case1 => exact .rfl
  | case2 s => exact .rfl
  | case3 s t rest hdate ih =>
    rw [ih, List.map_cons, List.map_cons, List.mem_cons, List.mem_cons, hdate]
    simp
  | case4 s t rest hdate ih =>
    rw [List.map_cons, List.mem_cons, ih]
    simp only [List.map_cons, List.mem_cons]

/-- Where dates do not decrease, the steps that are kept increase strictly. -/
theorem increasing_collapse (h : steps.Pairwise fun s t => s.date ≤ t.date) :
    Increasing (collapse steps) := by
  fun_induction collapse steps with
  | case1 => exact .nil
  | case2 s => exact List.pairwise_singleton _ s
  | case3 s t rest hdate ih => exact ih (List.pairwise_cons.mp h).2
  | case4 s t rest hdate ih =>
    obtain ⟨hs, hrest⟩ := List.pairwise_cons.mp h
    refine List.pairwise_cons.mpr ⟨?_, ih hrest⟩
    intro u hu
    -- The next step is later than the first, and all that are kept are no earlier than the next.
    have hst : s.date < t.date := lt_of_le_of_ne (hs t List.mem_cons_self) hdate
    obtain ⟨x, hx, hxu⟩ := List.mem_map.mp
      (mem_map_date_collapse_iff.mp (List.mem_map_of_mem hu))
    rw [← hxu]
    rcases List.mem_cons.mp hx with rfl | hx
    · exact hst
    · exact hst.trans_le ((List.pairwise_cons.mp hrest).1 x hx)

theorem pairwise_date_le_survivors (events : List Event) (rescinds : List Entry) :
    (survivors events rescinds).Pairwise fun a b => a.date ≤ b.date := by
  apply (pairwise_survivors events rescinds).imp
  intro a b h
  rcases before_iff.mp h with hlt | ⟨heq, -⟩
  · exact hlt.le
  · exact heq.le

/-- The first steps of a replay are those of the events up to some date. -/
theorem exists_steps_of_filter {events : List Event} (p : Date → Bool)
    (hdown : ∀ a b : Date, a ≤ b → p b → p a)
    (h : Replay.steps key corrections none (survivors events rescinds) = .ok steps) :
    ∃ front back, steps = front ++ back ∧
      Replay.steps key corrections none ((survivors events rescinds).filter fun e => p e.date) =
        .ok front ∧
      (∀ s ∈ front, p s.date) ∧ ∀ s ∈ back, ¬p s.date := by
  have hsplit : (survivors events rescinds).Pairwise fun a b => p b.date → p a.date :=
    (pairwise_date_le_survivors events rescinds).imp fun hle => hdown _ _ hle
  rw [← filter_append_filter_not hsplit] at h
  obtain ⟨front, last, back, hfront, hback, rfl⟩ := exists_steps_of_append h
  refine ⟨front, back, rfl, hfront, ?_, ?_⟩
  · intro s hs
    obtain ⟨e, he, hdate⟩ := exists_event_of_mem_steps hfront hs
    rw [← hdate]
    exact (List.mem_filter.mp he).2
  · intro s hs
    obtain ⟨e, he, hdate⟩ := exists_event_of_mem_steps hback hs
    rw [← hdate]
    simpa using (List.mem_filter.mp he).2

/-! ## Versions of steps -/

theorem exists_step_of_mem_stitch {v : Version} (hv : v ∈ stitch key n steps) :
    (∃ s ∈ steps, v.validFrom = s.date ∧ v.attributes = s.attributes) ∧
      (∀ last ∈ v.validTo, ∃ s ∈ steps, s.date = last) ∧ v.seqNo ≤ lastSeqNo := by
  induction steps generalizing n with
  | nil => simp [stitch] at hv
  | cons s rest ih =>
    rw [stitch, List.mem_cons] at hv
    rcases hv with rfl | hv
    · refine ⟨⟨s, List.mem_cons_self, rfl, rfl⟩, ?_, Nat.min_le_right _ _⟩
      intro last hlast
      obtain ⟨t, ht, htlast⟩ := Option.map_eq_some_iff.mp hlast
      exact ⟨t, List.mem_cons_of_mem s (List.mem_of_mem_head? ht), htlast⟩
    · obtain ⟨⟨t, ht, hfrom⟩, hto, hseq⟩ := ih hv
      refine ⟨⟨t, List.mem_cons_of_mem s ht, hfrom⟩, ?_, hseq⟩
      intro last hlast
      obtain ⟨u, hu, hulast⟩ := hto last hlast
      exact ⟨u, List.mem_cons_of_mem s hu, hulast⟩

theorem map_validFrom_attributes_stitch (key : EntityKey) (n : Nat) (steps : List Step) :
    (stitch key n steps).map (fun v => (v.validFrom, v.attributes)) =
      steps.map fun s => (s.date, s.attributes) := by
  induction steps generalizing n with
  | nil => rfl
  | cons s rest ih => rw [stitch, List.map_cons, List.map_cons, ih]

theorem map_validFrom_stitch (key : EntityKey) (n : Nat) (steps : List Step) :
    (stitch key n steps).map Version.validFrom = steps.map Step.date := by
  have hpairs := congrArg (List.map Prod.fst) (map_validFrom_attributes_stitch key n steps)
  rwa [List.map_map, List.map_map] at hpairs

/-- Each version ends where the next begins, and the last has no end. -/
theorem validTo_of_getElem?_stitch {v : Version} {i : Nat}
    (hv : (stitch key n steps)[i]? = some v) :
    v.validTo = (stitch key n steps)[i + 1]?.map Version.validFrom := by
  induction steps generalizing n i with
  | nil => cases hv
  | cons s rest ih =>
    rw [stitch, List.getElem?_cons_succ]
    cases i with
    | zero =>
      have hfirst : (stitch key (n + 1) rest)[0]?.map Version.validFrom =
          rest.head?.map Step.date := by
        rw [← List.getElem?_map, map_validFrom_stitch, List.getElem?_map, List.head?_eq_getElem?]
      rw [hfirst]
      cases hv
      rfl
    | succ i => exact ih hv

/-- A version covers no date that a later one covers. -/
theorem pairwise_contains_stitch (h : Increasing steps) (key : EntityKey) (n : Nat) :
    (stitch key n steps).Pairwise fun v w => ∀ date, v.contains date → ¬w.contains date := by
  induction steps generalizing n with
  | nil => exact .nil
  | cons s rest ih =>
    obtain ⟨-, hrest⟩ := List.pairwise_cons.mp h
    rw [stitch]
    refine List.pairwise_cons.mpr ⟨?_, ih hrest (n + 1)⟩
    intro w hw date hv hwdate
    obtain ⟨⟨t, ht, hfrom, -⟩, -⟩ := exists_step_of_mem_stitch hw
    have hend := (Version.contains_iff.mp hv).2
    have hstart := (Version.contains_iff.mp hwdate).1
    rw [hfrom] at hstart
    cases rest with
    | nil => cases ht
    | cons u rest =>
      have hbefore : date < u.date := hend u.date rfl
      rcases List.mem_cons.mp ht with rfl | ht
      · exact hbefore.not_ge hstart
      · have hut : u.date < t.date := (List.pairwise_cons.mp hrest).1 t ht
        exact (hbefore.trans hut).not_ge hstart

/-- Only dates before all steps are in no version. -/
theorem asOf?_stitch_eq_none_iff :
    Timeline.asOf? (stitch key n steps) date = none ↔ ∀ s ∈ steps, date < s.date := by
  induction steps generalizing n with
  | nil => simp [stitch, Timeline.asOf?]
  | cons s rest ih =>
    have hrest := ih (n := n + 1)
    rw [Timeline.asOf?, List.find?_eq_none] at hrest ⊢
    rw [stitch, List.forall_mem_cons, hrest, List.forall_mem_cons, Version.contains_iff]
    constructor
    · rintro ⟨hnot, hlater⟩
      refine ⟨?_, hlater⟩
      by_contra hle
      refine hnot ⟨not_lt.mp hle, ?_⟩
      intro last hlast
      obtain ⟨t, ht, rfl⟩ := Option.map_eq_some_iff.mp hlast
      exact hlater t (List.mem_of_mem_head? ht)
    · rintro ⟨hs, hlater⟩
      refine ⟨?_, hlater⟩
      rintro ⟨hle, -⟩
      exact hs.not_ge hle

/-- A version that ends where the next step begins covers the dates from its start on that are
before all later steps. -/
theorem contains_iff_of_head? {s : Step} {rest : List Step} {v : Version}
    (h : Increasing (s :: rest)) (hfrom : v.validFrom = s.date)
    (hto : v.validTo = rest.head?.map Step.date) :
    v.contains date ↔ s.date ≤ date ∧ ∀ t ∈ rest, date < t.date := by
  obtain ⟨-, hrest⟩ := List.pairwise_cons.mp h
  rw [Version.contains_iff, hfrom, hto]
  refine and_congr_right fun _ => ?_
  cases rest with
  | nil => simp
  | cons t later =>
    have hlater := (List.pairwise_cons.mp hrest).1
    simp only [List.head?_cons, Option.map_some, Option.mem_some_iff, forall_eq',
      List.forall_mem_cons]
    constructor
    · intro ht
      exact ⟨ht, fun u hu => ht.trans (hlater u hu)⟩
    · exact And.left

/-- The version in effect on a date is the last one that has begun by then. -/
theorem asOf?_stitch_eq_getLast? (h : Increasing steps) (key : EntityKey) (n : Nat) (date : Date) :
    Timeline.asOf? (stitch key n steps) date =
      ((stitch key n steps).filter fun v => v.validFrom ≤ date).getLast? := by
  induction steps generalizing n with
  | nil => rfl
  | cons s rest ih =>
    obtain ⟨-, hrest⟩ := List.pairwise_cons.mp h
    have hlast := ih hrest (n + 1)
    have hnone : Timeline.asOf? (stitch key (n + 1) rest) date = none ↔
        ∀ t ∈ rest, date < t.date := asOf?_stitch_eq_none_iff
    rw [stitch]
    generalize hv : Version.mk key (min n lastSeqNo) s.attributes s.date
      (rest.head?.map Step.date) = v
    have hfrom : v.validFrom = s.date := hv ▸ rfl
    have hcontains : v.contains date ↔ s.date ≤ date ∧ ∀ t ∈ rest, date < t.date :=
      contains_iff_of_head? h hfrom (hv ▸ rfl)
    rw [← hnone] at hcontains
    rw [Timeline.asOf?] at hcontains hlast ⊢
    rw [List.find?_cons, List.filter_cons, hfrom]
    by_cases hs : s.date ≤ date
    · -- A later version is in effect as soon as one has begun.
      rw [if_pos (by simpa using hs), List.getLast?_cons, ← hlast]
      cases hfound : (stitch key (n + 1) rest).find? fun v => v.contains date with
      | none => simp [hcontains.mpr ⟨hs, hfound⟩]
      | some w =>
        have hends : v.contains date = false := by
          simpa [hfound] using hcontains
        simp [hends]
    · have hbefore : v.contains date = false := by
        simpa [hs] using hcontains
      rw [if_neg (by simpa using hs), hbefore]
      exact hlast

end Replay

/-! ## Timelines that are replayed -/

/-- The versions of a replayed timeline begin on the dates on which events count, in order. -/
theorem exists_steps_of_replay {key : EntityKey} {events : List Event}
    {corrections rescinds : List Entry} {timeline : Timeline}
    (h : replay key events corrections rescinds = .ok timeline) :
    ∃ steps, Replay.Increasing steps ∧ timeline = Replay.stitch key 1 steps ∧
      ∀ date, date ∈ steps.map Replay.Step.date ↔
        ∃ e ∈ events, e.date = date ∧ ∀ r ∈ rescinds, r.date ≠ date := by
  obtain ⟨steps, hsteps, rfl⟩ := replay_eq_ok_iff.mp h
  have hdates := Replay.map_date_steps hsteps
  refine ⟨Replay.collapse steps, Replay.increasing_collapse ?_, rfl, ?_⟩
  · have hsurvivors := Replay.pairwise_date_le_survivors events rescinds
    rwa [← List.pairwise_map (f := fun e : Event => e.date), ← hdates, List.pairwise_map]
      at hsurvivors
  · intro date
    rw [Replay.mem_map_date_collapse_iff, hdates, List.mem_map]
    simp only [Replay.mem_survivors_iff]
    constructor
    · rintro ⟨e, ⟨he, hcounts⟩, rfl⟩
      exact ⟨e, he, rfl, hcounts⟩
    · rintro ⟨e, he, rfl, hcounts⟩
      exact ⟨e, ⟨he, hcounts⟩, rfl⟩

/-- A replayed timeline has no two versions of one number, since the calendar has fewer dates than
there are numbers. -/
theorem nodup_seqNo_replay {key : EntityKey} {events : List Event}
    {corrections rescinds : List Entry} {timeline : Timeline}
    (h : replay key events corrections rescinds = .ok timeline) :
    (timeline.map Version.seqNo).Nodup := by
  obtain ⟨steps, hincreasing, rfl, -⟩ := exists_steps_of_replay h
  have hlength := Date.length_lt_of_nodup hincreasing.nodup_date
  rw [List.length_map] at hlength
  rw [Replay.nodup_seqNo_stitch_iff, Replay.lastSeqNo]
  exact Nat.le_of_lt hlength

/-- No two versions of a replayed timeline contain the same date. -/
theorem pairwise_contains_replay {key : EntityKey} {events : List Event}
    {corrections rescinds : List Entry} {timeline : Timeline}
    (h : replay key events corrections rescinds = .ok timeline) :
    timeline.Pairwise fun v w => ∀ date, v.contains date → ¬w.contains date := by
  obtain ⟨steps, hincreasing, rfl, -⟩ := exists_steps_of_replay h
  exact Replay.pairwise_contains_stitch hincreasing key 1

theorem asOf?_eq_getLast? {key : EntityKey} {events : List Event}
    {corrections rescinds : List Entry} {timeline : Timeline}
    (h : replay key events corrections rescinds = .ok timeline) (date : Date) :
    timeline.asOf? date = (timeline.filter fun v => v.validFrom ≤ date).getLast? := by
  obtain ⟨steps, hincreasing, rfl, -⟩ := exists_steps_of_replay h
  exact Replay.asOf?_stitch_eq_getLast? hincreasing key 1 date

/-- A version begins on a date on which an event counts. -/
theorem exists_event_of_mem_replay {key : EntityKey} {events : List Event}
    {corrections rescinds : List Entry} {timeline : Timeline}
    (h : replay key events corrections rescinds = .ok timeline) {v : Version} (hv : v ∈ timeline) :
    ∃ e ∈ events, e.date = v.validFrom ∧ ∀ r ∈ rescinds, r.date ≠ v.validFrom := by
  obtain ⟨steps, -, rfl, hdates⟩ := exists_steps_of_replay h
  have hmem : v.validFrom ∈ (Replay.stitch key 1 steps).map Version.validFrom :=
    List.mem_map_of_mem hv
  rw [Replay.map_validFrom_stitch] at hmem
  exact (hdates v.validFrom).mp hmem

/-- No version that has begun by a date begins later than the one in effect on it. -/
theorem validFrom_le_of_asOf? {key : EntityKey} {events : List Event}
    {corrections rescinds : List Entry} {timeline : Timeline}
    (h : replay key events corrections rescinds = .ok timeline) {date : Date} {v w : Version}
    (hv : timeline.asOf? date = some v) (hw : w ∈ timeline) (hdate : w.validFrom ≤ date) :
    w.validFrom ≤ v.validFrom := by
  rw [asOf?_eq_getLast? h] at hv
  obtain ⟨earlier, hfilter⟩ := List.getLast?_eq_some_iff.mp hv
  obtain ⟨steps, hincreasing, rfl, -⟩ := exists_steps_of_replay h
  have hsorted : (Replay.stitch key 1 steps).Pairwise fun v w => v.validFrom < w.validFrom := by
    rw [← List.pairwise_map, Replay.map_validFrom_stitch, List.pairwise_map]
    exact hincreasing
  have hbegun := hsorted.filter fun v => v.validFrom ≤ date
  have hmem : w ∈ (Replay.stitch key 1 steps).filter fun v => v.validFrom ≤ date :=
    List.mem_filter.mpr ⟨hw, by simpa using hdate⟩
  rw [hfilter] at hbegun hmem
  rcases List.mem_append.mp hmem with hearlier | hlast
  · exact ((List.pairwise_append.mp hbegun).2.2 w hearlier v List.mem_cons_self).le
  · rw [List.mem_singleton.mp hlast]

/-! ## Tilings -/

/-- Versions that begin one after another, each where the one before it ends.  They are numbered
from one on, only the last has no end, and none is empty. -/
structure Timeline.Tiles (timeline : Timeline) : Prop where
  increasing : timeline.Pairwise fun v w => v.validFrom < w.validFrom
  numbered : timeline.map Version.seqNo = List.range' 1 timeline.length
  adjacent : ∀ i v, timeline[i]? = some v → v.validTo = timeline[i + 1]?.map Version.validFrom
  isOpen_iff : ∀ i v, timeline[i]? = some v → (v.isOpen ↔ i + 1 = timeline.length)
  nonempty : ∀ v ∈ timeline, ∀ last ∈ v.validTo, v.validFrom < last

theorem Replay.tiles_stitch {steps : List Step} (h : Increasing steps) (key : EntityKey) :
    Timeline.Tiles (stitch key 1 steps) := by
  have hlength : (stitch key 1 steps).length = steps.length := by
    rw [← List.length_map (f := Version.validFrom), map_validFrom_stitch, List.length_map]
  have hsorted : (stitch key 1 steps).Pairwise fun v w => v.validFrom < w.validFrom := by
    rw [← List.pairwise_map, map_validFrom_stitch, List.pairwise_map]
    exact h
  have hnumbers : steps.length ≤ lastSeqNo := by
    have hdates := Date.length_lt_of_nodup h.nodup_date
    rw [List.length_map] at hdates
    exact Nat.le_of_lt hdates
  constructor
  · exact hsorted
  · rw [hlength]
    exact map_seqNo_stitch_of_le key hnumbers
  · intro i v hv
    exact validTo_of_getElem?_stitch hv
  · intro i v hv
    have hi := (List.getElem?_eq_some_iff.mp hv).1
    rw [Version.isOpen, validTo_of_getElem?_stitch hv, Option.isNone_map, Option.isNone_iff_eq_none,
      List.getElem?_eq_none_iff]
    omega
  · intro v hv last hlast
    obtain ⟨i, hi, rfl⟩ := List.mem_iff_getElem.mp hv
    rw [validTo_of_getElem?_stitch (List.getElem?_eq_getElem hi)] at hlast
    obtain ⟨w, hw, rfl⟩ := Option.map_eq_some_iff.mp hlast
    obtain ⟨hi', rfl⟩ := List.getElem?_eq_some_iff.mp hw
    exact List.pairwise_iff_getElem.mp hsorted i (i + 1) hi hi' (Nat.lt_succ_self i)

theorem Replay.asOf?_stitch_eq_none_iff_of_head? {key : EntityKey} {n : Nat} {steps : List Step}
    (h : Increasing steps) {first : Version} (hfirst : first ∈ (stitch key n steps).head?)
    (date : Date) :
    Timeline.asOf? (stitch key n steps) date = none ↔ date < first.validFrom := by
  cases steps with
  | nil => cases hfirst
  | cons s rest =>
    cases hfirst
    rw [asOf?_stitch_eq_none_iff, List.forall_mem_cons]
    constructor
    · exact And.left
    · intro hs
      exact ⟨hs, fun t ht => hs.trans ((List.pairwise_cons.mp h).1 t ht)⟩

/-- A replayed timeline tiles the calendar from its first day on.  Its versions begin on the dates
on which events count.  From the first of these on every date lies in one version, which is the
version in effect, and no earlier date lies in any.  There are fewer dates than numbers of
versions, so that the numbers never run out. -/
theorem tiles_replay (key : EntityKey) (events : List Event) (corrections rescinds : List Entry)
    (timeline : Timeline) (h : replay key events corrections rescinds = .ok timeline) :
    timeline.Tiles ∧
      (∀ date, (∃ v ∈ timeline, v.validFrom = date) ↔
        ∃ e ∈ events, e.date = date ∧ ∀ r ∈ rescinds, r.date ≠ date) ∧
      ∀ first ∈ timeline.head?, ∀ date,
        (first.validFrom ≤ date → ∃ v, timeline.filter (fun w => w.contains date) = [v] ∧
          timeline.asOf? date = some v) ∧
        (date < first.validFrom → timeline.filter (fun w => w.contains date) = [] ∧
          timeline.asOf? date = none) := by
  have hfound : ∀ date, timeline.filter (fun w => w.contains date) =
      (timeline.asOf? date).toList := by
    intro date
    exact filter_eq_toList_find? ((pairwise_contains_replay h).imp fun hvw => hvw date)
  obtain ⟨steps, hincreasing, rfl, hdates⟩ := exists_steps_of_replay h
  refine ⟨Replay.tiles_stitch hincreasing key, ?_, ?_⟩
  · intro date
    rw [← hdates date, ← Replay.map_validFrom_stitch key 1, List.mem_map]
  · intro first hfirst date
    have hnone := Replay.asOf?_stitch_eq_none_iff_of_head? hincreasing hfirst date
    rw [hfound date]
    constructor
    · intro hbegun
      obtain ⟨v, hv⟩ := Option.ne_none_iff_exists'.mp (mt hnone.mp hbegun.not_gt)
      exact ⟨v, by rw [hv, Option.toList_some], hv⟩
    · intro hearlier
      have hasOf := hnone.mpr hearlier
      exact ⟨by rw [hasOf, Option.toList_none], hasOf⟩

/-- The sample has two versions for its three updates and its creation. -/
theorem tiles_replay_sample :
    ∃ timeline, replay ⟨"acme", "desk-7"⟩ Sample.history.events Sample.history.corrections
        Sample.history.rescinds = .ok timeline ∧
      timeline.Tiles ∧ (∃ v ∈ timeline, v.validFrom = Sample.day 19) ∧
      ¬∃ v ∈ timeline, v.validFrom = Sample.day 29 := by
  obtain ⟨timeline, hreplay⟩ := Sample.exists_replay_history
  obtain ⟨htiles, hdates, -⟩ := tiles_replay _ _ _ _ timeline hreplay
  refine ⟨timeline, hreplay, htiles, (hdates _).mpr ?_, mt (hdates _).mp ?_⟩
  · decide +kernel
  · decide +kernel

end DatedLedger

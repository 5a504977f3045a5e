import DatedLedger.Proofs.Timeline.Places

/-!
# The past of a timeline

Replay goes through the dates in order, so that what a history says about the time
before a date follows from its entries before that date.  The versions that begin
before the date are those of that earlier history, except that the last of them may
have another end.
-/

namespace DatedLedger

/-! ## Lists that differ in their last element -/

/-- Two lists are the same, except that their last elements may differ in what `cut` takes out. -/
structure SameButLast {α : Type} (cut : α → α) (xs ys : List α) : Prop where
  cut : xs.map cut = ys.map cut
  dropLast : xs.dropLast = ys.dropLast

namespace SameButLast

variable {α β : Type} {cut : α → α} {xs ys zs : List α}

theorem symm (h : SameButLast cut xs ys) : SameButLast cut ys xs :=
  ⟨h.cut.symm, h.dropLast.symm⟩

theorem trans (h : SameButLast cut xs ys) (h' : SameButLast cut ys zs) : SameButLast cut xs zs :=
  ⟨h.cut.trans h'.cut, h.dropLast.trans h'.dropLast⟩

theorem map (h : SameButLast cut xs ys) {f : α → β} {cut' : β → β}
    (hf : ∀ x, cut' (f x) = f (cut x)) : SameButLast cut' (xs.map f) (ys.map f) where
  cut := by
    have hcut : cut' ∘ f = f ∘ cut := funext hf
    rw [List.map_map, List.map_map, hcut, ← List.map_map, ← List.map_map, h.cut]
  dropLast := by
    rw [← List.map_dropLast, ← List.map_dropLast, h.dropLast]

/-- Of one element more in front, only a last one may differ. -/
theorem cons {x y : α} (h : SameButLast cut xs ys) (hcut : cut x = cut y) (hxy : xs ≠ [] → x = y) :
    SameButLast cut (x :: xs) (y :: ys) where
  cut := by
    rw [List.map_cons, List.map_cons, hcut, h.cut]
  dropLast := by
    cases xs with
    | nil =>
      have hys : ys = [] := List.map_eq_nil_iff.mp h.cut.symm
      rw [hys]
      rfl
    | cons x' xs' =>
      have hys : ys ≠ [] := by
        intro hnil
        have hmap := h.cut
        rw [hnil] at hmap
        cases hmap
      rw [hxy (List.cons_ne_nil x' xs'), List.dropLast_cons_of_ne_nil (List.cons_ne_nil x' xs'),
        List.dropLast_cons_of_ne_nil hys, h.dropLast]

end SameButLast

/-- A version without its end. -/
def Version.opened (v : Version) : Version :=
  { v with validTo := none }

namespace Replay

variable {key : EntityKey} {corrections rescinds : List Entry} {events : List Event} {date : Date}
  {xs ys : List Step}

/-! ## Steps -/

/-- Where no date is on both sides, each side is collapsed on its own. -/
theorem collapse_append (h : ∀ s ∈ xs, ∀ t ∈ ys, s.date ≠ t.date) :
    collapse (xs ++ ys) = collapse xs ++ collapse ys := by
  fun_induction collapse xs with
  | case1 => rfl
  | case2 s =>
    cases ys with
    | nil => rfl
    | cons t rest =>
      have hst : s.date ≠ t.date := h s List.mem_cons_self t List.mem_cons_self
      rw [List.singleton_append, collapse, if_neg hst]
      rfl
  | case3 s t rest hdate ih =>
    have hrest := ih fun u hu => h u (List.mem_cons_of_mem s hu)
    rw [List.cons_append, List.cons_append, collapse, if_pos hdate]
    exact hrest
  | case4 s t rest hdate ih =>
    have hrest := ih fun u hu => h u (List.mem_cons_of_mem s hu)
    rw [List.cons_append, List.cons_append, collapse, if_neg hdate]
    exact congrArg (s :: ·) hrest

/-- Of the versions of all steps, those before a date are the versions of the steps before it, up
to the end of the last. -/
theorem sameButLast_stitch (hxs : ∀ s ∈ xs, s.date < date) (hys : ∀ t ∈ ys, ¬t.date < date)
    (key : EntityKey) (n : Nat) :
    SameButLast Version.opened ((stitch key n (xs ++ ys)).filter fun v => v.validFrom < date)
      (stitch key n xs) := by
  induction xs generalizing n with
  | nil =>
    have hnone : (stitch key n ys).filter (fun v => v.validFrom < date) = [] := by
      rw [List.filter_eq_nil_iff]
      intro v hv
      obtain ⟨⟨t, ht, hfrom, -⟩, -⟩ := exists_step_of_mem_stitch hv
      rw [hfrom, decide_eq_true_iff]
      exact hys t ht
    rw [List.nil_append, hnone]
    exact ⟨rfl, rfl⟩
  | cons s rest ih =>
    obtain ⟨hs, hrest⟩ := List.forall_mem_cons.mp hxs
    rw [List.cons_append, stitch, stitch, List.filter_cons_of_pos (by simpa using hs)]
    refine (ih hrest (n + 1)).cons rfl ?_
    intro hne
    -- There is a step after the first one on the left, and it is the next one in both lists.
    cases rest with
    | nil =>
      have hempty := (ih hrest (n + 1)).cut
      exact absurd (List.map_eq_nil_iff.mp hempty) hne
    | cons t later => rfl

/-! ## Entries before a date -/

theorem survivors_before (events : List Event) (rescinds : List Entry) (date : Date) :
    survivors (events.filter fun e => e.date < date) (rescinds.filter fun r => r.date < date) =
      (survivors events rescinds).filter fun e => e.date < date := by
  rw [survivors, survivors, ← sortBy_filter before_total (fun _ _ _ => before_trans),
    List.filter_filter, List.filter_filter]
  congr 1
  apply List.filter_congr
  intro e _
  by_cases hlt : e.date < date
  · have hany : isRescinded (rescinds.filter fun r => r.date < date) e.date =
        isRescinded rescinds e.date := by
      rw [Bool.eq_iff_iff, isRescinded_iff, isRescinded_iff]
      constructor
      · rintro ⟨r, hr, hdate⟩
        exact ⟨r, (List.mem_filter.mp hr).1, hdate⟩
      · rintro ⟨r, hr, hdate⟩
        exact ⟨r, List.mem_filter.mpr ⟨hr, by simpa [hdate] using hlt⟩, hdate⟩
    rw [hany, Bool.and_comm]
  · simp [hlt]

theorem effectivePayload_before (corrections : List Entry) {e : Event} (h : e.date < date) :
    effectivePayload (corrections.filter fun c => c.date < date) e =
      effectivePayload corrections e := by
  have hsame : (fun c : Entry => decide (decide (c.date < date) = true ∧
      (c.date == e.date) = true)) = fun c => c.date == e.date := by
    funext c
    by_cases hdate : c.date = e.date
    · simp [hdate, h]
    · simp [hdate]
  rw [effectivePayload, effectivePayload, ← List.filter_reverse, List.find?_filter, hsame]

end Replay

namespace History

/-- What a history holds about the time before a date. -/
def before (h : History) (date : Date) : History where
  events := h.events.filter fun e => e.date < date
  corrections := h.corrections.filter fun c => c.date < date
  rescinds := h.rescinds.filter fun r => r.date < date

variable {h h' : History} {date : Date}

theorem Perm.before (hperm : h'.Perm h) (date : Date) : (h'.before date).Perm (h.before date) :=
  ⟨hperm.events.filter _, hperm.corrections.filter _, hperm.rescinds.filter _⟩

/-- An entry adds nothing to the time before its date. -/
theorem before_add (h : History) (a : AuditEntry) :
    (h.add a).before a.entry.date = h.before a.entry.date := by
  cases a with
  | event e => simp [before, add, AuditEntry.entry]
  | correction c => simp [before, add, AuditEntry.entry]
  | rescind r => simp [before, add, AuditEntry.entry]

end History

/-! ## Timelines -/

section Timelines

variable {key : EntityKey} {h h' : History} {timeline timeline' : Timeline} {date : Date}

/-- The versions before a date are those of the history before that date, up to the end of the
last. -/
theorem exists_replay_before
    (hreplay : replay key h.events h.corrections h.rescinds = .ok timeline) (date : Date) :
    ∃ past, replay key (h.before date).events (h.before date).corrections
        (h.before date).rescinds = .ok past ∧
      SameButLast Version.opened (timeline.filter fun v => v.validFrom < date) past := by
  obtain ⟨steps, hsteps, rfl⟩ := replay_eq_ok_iff.mp hreplay
  obtain ⟨front, back, rfl, hfront, hfrontDates, hbackDates⟩ := Replay.exists_steps_of_filter
    (fun d => d < date) (fun a b hle hlt => by simpa using hle.trans_lt (of_decide_eq_true hlt))
    hsteps
  simp only [decide_eq_true_iff] at hfrontDates hbackDates
  have hpast : Replay.steps key (h.before date).corrections none
      (Replay.survivors (h.before date).events (h.before date).rescinds) = .ok front := by
    rw [← hfront, History.before, Replay.survivors_before]
    refine Replay.steps_congr ?_ none
    intro e he
    exact Replay.effectivePayload_before h.corrections
      (of_decide_eq_true (List.mem_filter.mp he).2)
  refine ⟨_, replay_eq_ok_iff.mpr ⟨front, hpast, rfl⟩, ?_⟩
  rw [Replay.collapse_append fun s hs t ht heq =>
    hbackDates t ht (heq ▸ hfrontDates s hs)]
  refine Replay.sameButLast_stitch ?_ ?_ key 1
  · intro s hs
    exact hfrontDates s ((Replay.collapse_sublist front).subset hs)
  · intro t ht
    exact hbackDates t ((Replay.collapse_sublist back).subset ht)

/-- Histories that hold the same about the time before a date have the same versions before that
date, up to the end of the last. -/
theorem sameButLast_of_before_perm
    (hreplay : replay key h.events h.corrections h.rescinds = .ok timeline)
    (hreplay' : replay key h'.events h'.corrections h'.rescinds = .ok timeline')
    (hperm : (h'.before date).Perm (h.before date))
    (hevents : (h.events.map fun e => e.date).Nodup)
    (hcorrections : (h.corrections.map fun c => c.date).Nodup) :
    SameButLast Version.opened (timeline'.filter fun v => v.validFrom < date)
      (timeline.filter fun v => v.validFrom < date) := by
  obtain ⟨past, hpast, hsame⟩ := exists_replay_before hreplay date
  obtain ⟨past', hpast', hsame'⟩ := exists_replay_before hreplay' date
  have hnodup : ((h.before date).events.map fun e => e.date).Nodup :=
    hevents.sublist (List.filter_sublist.map _)
  have hnodup' : ((h.before date).corrections.map fun c => c.date).Nodup :=
    hcorrections.sublist (List.filter_sublist.map _)
  have heq := replay_eq_of_unplaced_perm hperm.symm.unplaced hnodup hnodup' key
  rw [hpast, hpast'] at heq
  cases heq
  exact hsame'.trans hsame.symm

/-- Where the versions before a date are the same up to the end of the last, so are the attributes
in effect on every earlier date. -/
theorem attributes_asOf?_eq
    (hreplay : replay key h.events h.corrections h.rescinds = .ok timeline)
    (hreplay' : replay key h'.events h'.corrections h'.rescinds = .ok timeline')
    (hsame : SameButLast Version.opened (timeline'.filter fun v => v.validFrom < date)
      (timeline.filter fun v => v.validFrom < date)) {day : Date} (hday : day < date) :
    (timeline'.asOf? day).map Version.attributes = (timeline.asOf? day).map Version.attributes := by
  have hlast : ∀ t : Timeline, (t.filter fun v => v.validFrom ≤ day).getLast?.map
      Version.attributes = (((t.filter fun v => v.validFrom < date).map Version.opened).filter
        fun v => v.validFrom ≤ day).getLast?.map Version.attributes := by
    intro t
    have hfilter : (fun v : Version => decide (v.validFrom ≤ day)) ∘ Version.opened =
        fun v => decide (v.validFrom ≤ day) := rfl
    have hboth : (fun v : Version => decide (v.validFrom ≤ day) && decide (v.validFrom < date)) =
        fun v => decide (v.validFrom ≤ day) := by
      funext v
      by_cases hle : v.validFrom ≤ day
      · simp [hle, hle.trans_lt hday]
      · simp [hle]
    rw [List.filter_map, hfilter, List.filter_filter, hboth, List.getLast?_map, Option.map_map]
    rfl
  rw [asOf?_eq_getLast? hreplay, asOf?_eq_getLast? hreplay', hlast timeline', hlast timeline,
    hsame.cut]

end Timelines

end DatedLedger

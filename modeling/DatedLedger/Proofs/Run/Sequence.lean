import DatedLedger.Proofs.Run.Agreement
import DatedLedger.Proofs.Run.Effects

/-!
# The order of commits

Positions are not handed out by a counter.  The next one is found anew for each
command, from the greatest positions in the three logs.  Still the entries that a run
adds, to whichever logs, are numbered from one on in the order in which they are
committed, and a request that adds none takes no number.
-/

namespace DatedLedger

/-! ## What a request commits -/

namespace Session

variable {α β : Type}

/-- The entry that a session adds when it is run as a transaction, if it adds one. -/
def appended? (session : Session (Outcome α)) (s : Store) : Option α :=
  match session.transaction s with
  | .ok (.appended a) _ => some a
  | .ok (.existing _) _ => none
  | .error _ _ => none

theorem appended?_cases (session : Session (Outcome α)) (s : Store) :
    session.appended? s = none ∧
        (session.commit s = s ∨ ∃ a, session s = .ok (.existing a) (session.commit s)) ∨
      ∃ a, session.appended? s = some a ∧ session s = .ok (.appended a) (session.commit s) := by
  cases h : session s with
  | error e t =>
    left
    rw [appended?, commit, transaction_of_eq_error h]
    exact ⟨rfl, .inl rfl⟩
  | ok out t =>
    rw [appended?, commit_of_eq_ok h, transaction_of_eq_ok h]
    cases out with
    | existing a => exact .inl ⟨rfl, .inr ⟨a, rfl⟩⟩
    | appended a => exact .inr ⟨a, rfl, rfl⟩

theorem commit_map (f : α → β) (session : Session α) (s : Store) :
    (f <$> session).commit s = session.commit s := by
  cases h : session s with
  | error e t =>
    rw [commit, commit, transaction_of_eq_error h, transaction_of_eq_error (map_of_eq_error f h)]
  | ok a t => rw [commit_of_eq_ok h, commit_of_eq_ok (map_of_eq_ok f h)]

end Session

namespace Mutation

/-- The request for a mutation at a time. -/
def request (m : Mutation) (now : Nat) : Request :=
  match m with
  | submit c => .submit c now
  | correct c => .correct c now
  | rescind c => .rescind c now

theorem run_request (m : Mutation) (now : Nat) (s : Store) :
    (m.request now).run s = (m.session now).commit s := by
  cases m with
  | submit c => exact (Session.commit_map _ (Session.submit c now) s).symm
  | correct c => exact (Session.commit_map _ (Session.correct c now) s).symm
  | rescind c => exact (Session.commit_map _ (Session.rescind c now) s).symm

end Mutation

/-- The entry that a request adds, if it adds one. -/
def Request.committed? : Request → Store → Option AuditEntry
  | submit c now => ((Mutation.submit c).session now).appended?
  | correct c now => ((Mutation.correct c).session now).appended?
  | rescind c now => ((Mutation.rescind c).session now).appended?
  | rebuild _ => fun _ => none

/-- The entries that some requests add, in the order in which they are committed. -/
def Store.committed (s : Store) : List Request → List AuditEntry
  | [] => []
  | r :: rs => (r.committed? s).toList ++ (r.run s).committed rs

namespace Mutation

variable {s s' : Store} {m : Mutation} {now : Nat} {a : AuditEntry}

theorem pos_entry (m : Mutation) (pos : Position) (now : Nat) :
    (m.entry pos now).entry.pos = pos := by
  cases m <;> rfl

/-- A new entry takes the next position and enters its log, and no other row of the logs changes. -/
theorem gains_of_appended (hs : s.Sound) (h : m.session now s = .ok (.appended a) s') :
    a.entry.pos = s.nextPosition ∧ s.Gains a s' := by
  rcases eq_or_records hs h with ⟨b, hout, -⟩ | ⟨hout, t, ht, hrec⟩
  · cases hout
  · obtain rfl := Outcome.appended.inj hout
    exact ⟨m.pos_entry _ _, ht.gains hrec⟩

theorem logs_run_request (hs : s.Sound) (m : Mutation) (now : Nat) :
    (m.session now).appended? s = none ∧ ((m.request now).run s).logs = s.logs ∨
      ∃ a, (m.session now).appended? s = some a ∧ a.entry.pos = s.nextPosition ∧
        ((m.request now).run s).logs = (s.add a).logs := by
  rw [m.run_request]
  rcases (m.session now).appended?_cases s with ⟨hnone, hsame | ⟨b, hok⟩⟩ | ⟨a, hsome, hok⟩
  · exact .inl ⟨hnone, by rw [hsame]⟩
  · rcases eq_or_records hs hok with ⟨-, -, hsame⟩ | ⟨hout, -⟩
    · exact .inl ⟨hnone, by rw [hsame]⟩
    · cases hout
  · obtain ⟨hpos, hgains⟩ := gains_of_appended hs hok
    exact .inr ⟨a, hsome, hpos, hgains.logs⟩

end Mutation

/-- A request that adds an entry gives it the next position, and one that adds none leaves the
logs as they are. -/
theorem Request.logs_run_committed {s : Store} (hs : s.Sound) (r : Request) :
    r.committed? s = none ∧ (r.run s).logs = s.logs ∨
      ∃ a, r.committed? s = some a ∧ a.entry.pos = s.nextPosition ∧
        (r.run s).logs = (s.add a).logs := by
  cases r with
  | submit c now => exact Mutation.logs_run_request hs (.submit c) now
  | correct c now => exact Mutation.logs_run_request hs (.correct c) now
  | rescind c now => exact Mutation.logs_run_request hs (.rescind c) now
  | rebuild key =>
    left
    refine ⟨rfl, ?_⟩
    have heffect := (Request.rebuild key).effect_run s
    generalize (Request.rebuild key).run s = s' at heffect ⊢
    cases heffect with
    | none r => rfl
    | timeline hhead hreplay => rfl

/-! ## What a run commits -/

namespace Store

variable {s t : Store}

theorem add_logs (s : Store) (a : AuditEntry) : s.logs.add a = (s.add a).logs := by
  cases a <;> rfl

theorem foldl_add_logs (s : Store) (entries : List AuditEntry) :
    entries.foldl add s.logs = (entries.foldl add s).logs := by
  induction entries generalizing s with
  | nil => rfl
  | cons a rest ih => rw [List.foldl_cons, List.foldl_cons, add_logs, ih]

/-- The logs hold what they held before, and after that the entries of the run in their order. -/
theorem Sound.logs_after (hs : s.Sound) (rs : List Request) :
    (s.after rs).logs = (s.committed rs).foldl add s.logs := by
  induction rs generalizing s with
  | nil => rfl
  | cons r rest ih =>
    rw [after_cons, ih (hs.run r), committed, List.foldl_append]
    rcases Request.logs_run_committed hs r with ⟨hnone, hlogs⟩ | ⟨a, hsome, -, hlogs⟩
    · rw [hnone, hlogs]
      rfl
    · rw [hsome, hlogs, ← add_logs]
      rfl

theorem size_foldl_add (s : Store) (entries : List AuditEntry) :
    (entries.foldl add s).size = s.size + entries.length := by
  induction entries generalizing s with
  | nil => rfl
  | cons a rest ih =>
    rw [List.foldl_cons, ih, size_add, List.length_cons]
    omega

theorem Sound.size_after (hs : s.Sound) (rs : List Request) :
    (s.after rs).size = s.size + (s.committed rs).length := by
  have hlogs := (hs.logs_after rs).trans (foldl_add_logs s _)
  rw [size_eq_of_logs_eq hlogs, size_foldl_add]

/-- The entries of a run are numbered in the order in which they are committed. -/
theorem Sound.positions_committed (hs : s.Sound) (hcounted : s.Counted) (rs : List Request)
    (hsize : (s.after rs).size < 2 ^ 63) :
    (s.committed rs).map (fun a => a.entry.pos) =
      List.range' (s.size + 1) (s.committed rs).length := by
  induction rs generalizing s with
  | nil => rfl
  | cons r rest ih =>
    -- The rest of the run begins with the store that the first request leaves, which the
    -- induction hypothesis numbers from its own size on.
    have hle := size_le_size_after s [r]
    have hle' := size_le_size_after (r.run s) rest
    have hrun : (r.run s).size < 2 ^ 63 := Nat.lt_of_le_of_lt hle' hsize
    have hrest := ih (hs.run r) (hcounted.run r hrun) hsize
    rw [committed]
    rcases Request.logs_run_committed hs r with ⟨hnone, hlogs⟩ | ⟨a, hsome, hpos, hlogs⟩
    · rw [size_eq_of_logs_eq hlogs] at hrest
      rw [hnone]
      exact hrest
    · rw [hcounted.nextPosition_eq (Nat.lt_of_le_of_lt hle hrun)] at hpos
      rw [size_eq_of_logs_eq hlogs, size_add] at hrest
      rw [hsome, Option.toList_some, List.singleton_append, List.map_cons, List.length_cons,
        List.range'_succ, hpos, hrest]

/-! ## One sequence -/

/-- The greatest position in the three logs, as it is stored. -/
def greatest (s : Store) : Int :=
  max (s.lastPosition .events) (max (s.lastPosition .corrections) (s.lastPosition .rescinds))

theorem nextPosition_eq_next (s : Store) :
    s.nextPosition = Position.next (unsignedWord s.greatest) := rfl

/-- These entries are what the logs hold.  In this order their positions are the numbers from one
to the number of all rows, and so are the positions that are stored. -/
structure Sequenced (s : Store) (entries : List AuditEntry) : Prop where
  logs : s.logs = entries.foldl add empty
  positions : entries.map (fun a => a.entry.pos) = List.range' 1 s.size
  stored : s.positions.Perm ((List.range' 1 s.size).map Nat.cast)

/-- No position changes when it is stored or read, and the next one is found without overflow. -/
structure Lossless (s : Store) : Prop where
  rows : ∀ log, ∀ row ∈ s.rows log, (unsignedWord row.pos : Int) = row.pos
  heads : ∀ row ∈ s.heads, (unsignedWord row.lastPos : Int) = row.lastPos
  greatest : (unsignedWord s.greatest : Int) = s.greatest
  next : s.nextPosition = unsignedWord s.greatest + 1
  stored : signedWord s.nextPosition = s.nextPosition

theorem Counted.stored (hs : s.Counted) :
    s.positions.Perm ((List.range' 1 s.size).map Nat.cast) := by
  have hnumbers : (List.range' 1 s.size).map (Nat.cast (R := Int)) =
      (List.range s.size).map fun i : Nat => (i : Int) + 1 := by
    rw [List.range'_eq_map_range, List.map_map]
    apply List.map_congr_left
    intro i _
    exact Int.add_comm 1 i
  rw [hnumbers]
  exact hs.positions

theorem Sound.lastPos_bounds (hs : s.Sound) (hcounted : s.Counted) (hsize : s.size < 2 ^ 63)
    {row : HeadRow} (hrow : row ∈ s.heads) : 1 ≤ row.lastPos ∧ row.lastPos ≤ s.size := by
  obtain ⟨kind, h, timeline, -, hcoherent⟩ := hs.exists_coherent_of_mem hrow
  have hmax := hcoherent.max?_positions hcounted hsize
  exact hcounted.bounds_of_mem_ofEntity (List.max?_mem hmax)

theorem Sound.lossless (hs : s.Sound) (hcounted : s.Counted) (hsize : s.size < 2 ^ 63 - 1) :
    s.Lossless := by
  have hnext := hcounted.nextPosition_eq (by omega)
  have hgreatest : 0 ≤ s.greatest ∧ s.greatest ≤ s.size := by
    have hevents := hcounted.lastPosition_bounds .events
    have hcorrections := hcounted.lastPosition_bounds .corrections
    have hrescinds := hcounted.lastPosition_bounds .rescinds
    rw [greatest]
    omega
  have hcast := natCast_unsignedWord hgreatest.1 (by omega)
  refine ⟨?_, ?_, hcast, ?_, ?_⟩
  · intro log row hrow
    have hbounds := hcounted.bounds log hrow
    exact natCast_unsignedWord (by omega) (by omega)
  · intro row hrow
    have hbounds := hs.lastPos_bounds hcounted (by omega) hrow
    exact natCast_unsignedWord (by omega) (by omega)
  · rw [nextPosition_eq_next, Position.next]
    exact Nat.mod_eq_of_lt (by omega)
  · rw [hnext]
    exact signedWord_of_lt (by omega)

/-- In every store that a run reaches with fewer than 2⁶³ - 1 rows in its logs, the entries in the
order in which they were committed have the numbers from one on as their positions, without a gap
and whatever requests failed or added nothing between them.  The next entry that a mutation adds, to
whichever log, has the number after them, also as it is stored, and no word overflows. -/
theorem sequenced_after (rs : List Request) (hsize : (empty.after rs).size < 2 ^ 63 - 1) :
    (empty.after rs).Sequenced (empty.committed rs) ∧
      (∀ (m : Mutation) (now : Nat) (a : AuditEntry) (s' : Store),
        (m.session now).transaction (empty.after rs) = .ok (.appended a) s' →
          a.entry.pos = (empty.after rs).size + 1 ∧
          a.entry.row.pos = (empty.after rs).size + 1 ∧ (empty.after rs).Gains a s') ∧
      (empty.after rs).Lossless := by
  have hsound := sound_after rs
  have hcounted := counted_after rs (by omega)
  have hlossless := hsound.lossless hcounted hsize
  have hnext := hcounted.nextPosition_eq (by omega)
  refine ⟨⟨?_, ?_, hcounted.stored⟩, ?_, hlossless⟩
  · exact sound_empty.logs_after rs
  · have hlength := sound_empty.size_after rs
    rw [sound_empty.positions_committed counted_empty rs (by omega), hlength]
    exact congrArg (List.range' 1) (Nat.zero_add _).symm
  · intro m now a s' happended
    obtain ⟨hpos, hgains⟩ :=
      Mutation.gains_of_appended hsound (Session.transaction_eq_ok_iff.mp happended)
    refine ⟨hpos.trans hnext, ?_, hgains⟩
    change signedWord a.entry.pos = _
    rw [hpos, hlossless.stored, hnext]
    rfl

/-- Four of the requests of the sample add an entry, and the last takes no position. -/
theorem sequenced_after_sample :
    (empty.after Sample.run).size < 2 ^ 63 - 1 ∧
      (empty.after Sample.run).Sequenced (empty.committed Sample.run) ∧
      (empty.committed Sample.run).map (fun a => (a.log, a.entry.pos)) =
        [(.events, 1), (.events, 2), (.corrections, 3), (.rescinds, 4)] :=
  ⟨size_sample_lt, (sequenced_after Sample.run size_sample_lt).1, by decide +kernel⟩

end Store

end DatedLedger

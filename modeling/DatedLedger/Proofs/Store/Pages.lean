import DatedLedger.Proofs.Json.ReadBack
import DatedLedger.Proofs.Store.Entities

/-!
# Pages of the audit

A page is put together from the newest rows of each log, of which no more are read
than the page has room for.  Nothing is lost by that: what does not come first in its
own log does not come first in all three.
-/

namespace DatedLedger

/-! ## First entries in order -/

/-- The first entries in order, at most `n` of them. -/
def firstBy {α : Type} (le : α → α → Bool) (n : Nat) (xs : List α) : List α :=
  (sortBy le xs).take n

section FirstBy

variable {α : Type} {le : α → α → Bool} {xs ys : List α}

theorem firstBy_map {β : Type} (le' : β → β → Bool) (f : α → β)
    (h : ∀ x ∈ xs, ∀ y ∈ xs, le' (f x) (f y) = le x y) (n : Nat) :
    firstBy le' n (xs.map f) = (firstBy le n xs).map f := by
  rw [firstBy, firstBy, sortBy_map h, List.map_take]

theorem mem_of_mem_firstBy {n : Nat} {x : α} (h : x ∈ firstBy le n xs) : x ∈ xs :=
  mem_sortBy.mp (List.mem_of_mem_take h)

variable (total : ∀ a b, le a b || le b a) (trans : ∀ a b c, le a b → le b c → le a c)
include total trans

theorem firstBy_append_firstBy (xs ys : List α) (n : Nat) :
    firstBy le n (xs ++ firstBy le n ys) = firstBy le n (xs ++ ys) := by
  induction xs with
  | nil =>
    have hsorted := (pairwise_sortBy total trans ys).sublist (List.take_sublist n (sortBy le ys))
    rw [List.nil_append, List.nil_append, firstBy, firstBy, sortBy_eq_self hsorted, List.take_take,
      Nat.min_self]
  | cons x rest ih =>
    have hcons : ∀ zs, firstBy le n (x :: zs) = (insertBy le x (firstBy le n zs)).take n :=
      fun zs => take_insertBy le x (sortBy le zs) n
    rw [List.cons_append, List.cons_append, hcons, hcons, ih]

/-- The first entries of two lists together are found among the first of each. -/
theorem firstBy_firstBy_append (anti : ∀ a ∈ xs ++ ys, ∀ b ∈ xs ++ ys, le a b → le b a → a = b)
    (n : Nat) : firstBy le n (firstBy le n xs ++ firstBy le n ys) = firstBy le n (xs ++ ys) := by
  have hmem : ∀ a ∈ firstBy le n xs ++ ys, a ∈ xs ++ ys := by
    intro a ha
    rcases List.mem_append.mp ha with ha | ha
    · exact List.mem_append_left ys (mem_of_mem_firstBy ha)
    · exact List.mem_append_right xs ha
  calc firstBy le n (firstBy le n xs ++ firstBy le n ys)
    _ = firstBy le n (firstBy le n xs ++ ys) := firstBy_append_firstBy total trans _ ys n
    _ = firstBy le n (ys ++ firstBy le n xs) :=
      congrArg (List.take n) (sortBy_eq_of_perm total trans
        (fun a ha b hb => anti a (hmem a ha) b (hmem b hb)) List.perm_append_comm)
    _ = firstBy le n (ys ++ xs) := firstBy_append_firstBy total trans ys xs n
    _ = firstBy le n (xs ++ ys) :=
      congrArg (List.take n)
        (sortBy_eq_of_perm total trans anti List.perm_append_comm).symm

/-- The first entries of three lists together are found among the first of each. -/
theorem firstBy_parts {ws zs : List α} (anti : ∀ a ∈ zs, ∀ b ∈ zs, le a b → le b a → a = b)
    (hperm : zs.Perm (xs ++ (ys ++ ws))) (n : Nat) :
    firstBy le n (firstBy le n xs ++ (firstBy le n ys ++ firstBy le n ws)) = firstBy le n zs := by
  have hall : ∀ a ∈ xs ++ (ys ++ ws), ∀ b ∈ xs ++ (ys ++ ws), le a b → le b a → a = b :=
    fun a ha b hb => anti a (hperm.mem_iff.mpr ha) b (hperm.mem_iff.mpr hb)
  have hlast : ∀ a ∈ ys ++ ws, ∀ b ∈ ys ++ ws, le a b → le b a → a = b :=
    fun a ha b hb => hall a (List.mem_append_right xs ha) b (List.mem_append_right xs hb)
  calc firstBy le n (firstBy le n xs ++ (firstBy le n ys ++ firstBy le n ws))
    _ = firstBy le n (firstBy le n xs ++ firstBy le n (firstBy le n ys ++ firstBy le n ws)) :=
      (firstBy_append_firstBy total trans _ _ n).symm
    _ = firstBy le n (firstBy le n xs ++ firstBy le n (ys ++ ws)) := by
      rw [firstBy_firstBy_append total trans hlast]
    _ = firstBy le n (xs ++ (ys ++ ws)) := firstBy_firstBy_append total trans hall n
    _ = firstBy le n zs := congrArg (List.take n) (sortBy_eq_of_perm total trans anti hperm).symm

end FirstBy

namespace AuditEntry

/-! ## Entries of the three logs -/

/-- Whether an entry is later than another: of a later time, or of the same time and at a later
position. -/
def Newer (a b : AuditEntry) : Prop :=
  b.entry.recordedMs < a.entry.recordedMs ∨
    (a.entry.recordedMs = b.entry.recordedMs ∧ b.entry.pos < a.entry.pos)

def event? : AuditEntry → Option Event
  | event e => some e
  | correction _ => none
  | rescind _ => none

def correction? : AuditEntry → Option Entry
  | event _ => none
  | correction e => some e
  | rescind _ => none

def rescind? : AuditEntry → Option Entry
  | event _ => none
  | correction _ => none
  | rescind e => some e

/-- An entry comes back from its row as it is. -/
structure Steady (a : AuditEntry) : Prop where
  payload : Payload.parse a.entry.payload.text = .ok a.entry.payload
  pos : a.entry.pos < 2 ^ 63
  recordedMs : a.entry.recordedMs < 2 ^ 63

theorem Steady.entry_row {a : AuditEntry} (ha : a.Steady) : a.entry.row.entry = .ok a.entry :=
  Entry.entry_row_eq_ok_iff.mpr ⟨a.entry.payload, ha.payload,
    (Entry.stored_eq_self (Nat.lt_trans ha.pos (by decide))
      (Nat.lt_trans ha.recordedMs (by decide))).symm⟩

theorem Steady.event_row {e : Event} (he : (event e).Steady) : e.row.event = .ok e :=
  Event.event_row_eq_ok_iff.mpr ⟨e.payload, he.payload,
    (Event.stored_eq_self (Nat.lt_trans he.pos (by decide))
      (Nat.lt_trans he.recordedMs (by decide))).symm⟩

variable {entries : List AuditEntry}

theorem perm_of_logs (entries : List AuditEntry) :
    entries.Perm ((entries.filterMap event?).map event ++
      ((entries.filterMap correction?).map correction ++
        (entries.filterMap rescind?).map rescind)) := by
  induction entries with
  | nil => exact .refl _
  | cons a rest ih =>
    cases a with
    | event e => exact ih.cons _
    | correction e => exact (ih.cons _).trans List.perm_middle.symm
    | rescind e =>
      refine (ih.cons _).trans ?_
      rw [← List.append_assoc]
      refine List.perm_middle.symm.trans ?_
      rw [List.append_assoc]
      exact .refl _

theorem event?_eq_some_iff {a : AuditEntry} {e : Event} : a.event? = some e ↔ a = event e := by
  cases a <;> simp [event?]

theorem correction?_eq_some_iff {a : AuditEntry} {e : Entry} :
    a.correction? = some e ↔ a = correction e := by
  cases a <;> simp [correction?]

theorem rescind?_eq_some_iff {a : AuditEntry} {e : Entry} :
    a.rescind? = some e ↔ a = rescind e := by
  cases a <;> simp [rescind?]

/-- What is selected from entries are entries that were there. -/
theorem mem_of_mem_filterMap {α : Type} {select : AuditEntry → Option α} {wrap : α → AuditEntry}
    (hselect : ∀ {a x}, select a = some x ↔ a = wrap x) {x : α}
    (hx : x ∈ entries.filterMap select) : wrap x ∈ entries := by
  obtain ⟨a, ha, hax⟩ := List.mem_filterMap.mp hx
  rwa [hselect.mp hax] at ha

end AuditEntry

namespace Store

variable {s : Store} {key : EntityKey} {entries : List AuditEntry} {a b : AuditEntry}

/-! ## The order of the audit -/

theorem newestEntry_iff : newestEntry a b ↔ b.entry.recordedMs < a.entry.recordedMs ∨
    (a.entry.recordedMs = b.entry.recordedMs ∧ b.entry.pos ≤ a.entry.pos) := by
  simp [newestEntry]

theorem newestEntry_total (a b : AuditEntry) : newestEntry a b || newestEntry b a := by
  rw [Bool.or_eq_true, newestEntry_iff, newestEntry_iff]
  rcases Nat.lt_trichotomy a.entry.recordedMs b.entry.recordedMs with hms | hms | hms
  · exact .inr (.inl hms)
  · rcases Nat.le_total a.entry.pos b.entry.pos with hpos | hpos
    · exact .inr (.inr ⟨hms.symm, hpos⟩)
    · exact .inl (.inr ⟨hms, hpos⟩)
  · exact .inl (.inl hms)

theorem newestEntry_trans (a b c : AuditEntry) (hab : newestEntry a b) (hbc : newestEntry b c) :
    newestEntry a c := by
  rw [newestEntry_iff] at hab hbc ⊢
  rcases hab with hab | ⟨hab, hpos⟩
  · rcases hbc with hbc | ⟨hbc, -⟩
    · exact .inl (Nat.lt_trans hbc hab)
    · exact .inl (hbc ▸ hab)
  · rcases hbc with hbc | ⟨hbc, hpos'⟩
    · exact .inl (hab ▸ hbc)
    · exact .inr ⟨hab.trans hbc, Nat.le_trans hpos' hpos⟩

/-- Where positions are not shared, only one of two entries may stand in front of the other. -/
theorem newestEntry_anti (hpos : (entries.map fun a => a.entry.pos).Nodup) :
    ∀ a ∈ entries, ∀ b ∈ entries, newestEntry a b → newestEntry b a → a = b := by
  intro a ha b hb hab hba
  rw [newestEntry_iff] at hab hba
  rcases hab with hab | ⟨hab, hle⟩
  · rcases hba with hba | ⟨hba, -⟩
    · exact absurd hba (Nat.lt_asymm hab)
    · exact absurd hba (Nat.ne_of_lt hab)
  · rcases hba with hba | ⟨-, hle'⟩
    · exact absurd hab (Nat.ne_of_lt hba)
    · exact List.inj_on_of_nodup_map hpos ha hb (Nat.le_antisymm hle' hle)

/-- Rows are ordered as their entries are, as long as no word overflows. -/
theorem newestRow_row (ha : a.Steady) (hb : b.Steady) :
    newestRow a.entry.row b.entry.row = newestEntry a b := by
  have hrow : newestRow a.entry.row b.entry.row ↔ newestEntry a b := by
    rw [newestEntry_iff]
    simp only [newestRow, Entry.row, signedWord_of_lt ha.pos, signedWord_of_lt hb.pos,
      signedWord_of_lt ha.recordedMs, signedWord_of_lt hb.recordedMs, Bool.or_eq_true,
      Bool.and_eq_true, decide_eq_true_eq, beq_iff_eq, Int.ofNat_lt, Int.ofNat_le,
      Int.natCast_inj]
  exact Bool.eq_iff_iff.mpr hrow

/-! ## Reading pages -/

/-- The newest rows of a log are read as the newest of its entries. -/
theorem readAll_firstBy {ρ α : Type} (toRow : ρ → LogRow) (row : α → ρ)
    (read : ρ → Except RowFault α) (wrap : α → AuditEntry) {xs : List α}
    (hread : ∀ x ∈ xs, read (row x) = .ok x)
    (hrow : ∀ x ∈ xs, toRow (row x) = (wrap x).entry.row) (hsteady : ∀ x ∈ xs, (wrap x).Steady)
    (n : Nat) :
    ∃ page, readAll read (firstBy (fun a b => newestRow (toRow a) (toRow b)) n (xs.map row)) =
        .ok page ∧ page.map wrap = firstBy newestEntry n (xs.map wrap) := by
  have hnewest : ∀ x ∈ xs, ∀ y ∈ xs, newestRow (toRow (row x)) (toRow (row y)) =
      newestEntry (wrap x) (wrap y) := by
    intro x hx y hy
    rw [hrow x hx, hrow y hy, newestRow_row (hsteady x hx) (hsteady y hy)]
  refine ⟨firstBy (fun x y => newestEntry (wrap x) (wrap y)) n xs, ?_,
    (firstBy_map newestEntry wrap (fun _ _ _ _ => rfl) n).symm⟩
  have hpage : firstBy (fun a b => newestRow (toRow a) (toRow b)) n (xs.map row) =
      (firstBy (fun x y => newestEntry (wrap x) (wrap y)) n xs).map row :=
    firstBy_map (fun a b => newestRow (toRow a) (toRow b)) row hnewest n
  rw [hpage, readAll_eq_ok_iff, List.map_map]
  apply List.map_congr_left
  intro x hx
  exact hread x (mem_of_mem_firstBy hx)

theorem foldl_add_eq (s : Store) (entries : List AuditEntry) :
    entries.foldl add s =
      { s with
        events := s.events ++ (entries.filterMap AuditEntry.event?).map Event.row
        corrections := s.corrections ++ (entries.filterMap AuditEntry.correction?).map Entry.row
        rescinds := s.rescinds ++ (entries.filterMap AuditEntry.rescind?).map Entry.row } := by
  induction entries generalizing s with
  | nil => simp
  | cons a rest ih =>
    rw [List.foldl_cons, ih]
    cases a with
    | event e =>
      simp [add, List.filterMap_cons, AuditEntry.event?, AuditEntry.correction?,
        AuditEntry.rescind?]
    | correction e =>
      simp [add, List.filterMap_cons, AuditEntry.event?, AuditEntry.correction?,
        AuditEntry.rescind?]
    | rescind e =>
      simp [add, List.filterMap_cons, AuditEntry.event?, AuditEntry.correction?,
        AuditEntry.rescind?]

/-- A page has the newest entries of an entity, given that they come back from its logs and that
they do not share positions. -/
theorem audit_eq
    (hevents : (s.ofEntity key).events = (entries.filterMap AuditEntry.event?).map Event.row)
    (hcorrections : (s.ofEntity key).corrections =
      (entries.filterMap AuditEntry.correction?).map Entry.row)
    (hrescinds : (s.ofEntity key).rescinds =
      (entries.filterMap AuditEntry.rescind?).map Entry.row)
    (hsteady : ∀ a ∈ entries, a.Steady) (hpos : (entries.map fun a => a.entry.pos).Nodup)
    (n : Nat) : s.audit key n = .ok (firstBy newestEntry n entries) := by
  have hevent : ∀ e ∈ entries.filterMap AuditEntry.event?, (AuditEntry.event e).Steady := by
    intro e he
    exact hsteady _ (AuditEntry.mem_of_mem_filterMap AuditEntry.event?_eq_some_iff he)
  have hcorrection : ∀ e ∈ entries.filterMap AuditEntry.correction?,
      (AuditEntry.correction e).Steady := by
    intro e he
    exact hsteady _ (AuditEntry.mem_of_mem_filterMap AuditEntry.correction?_eq_some_iff he)
  have hrescind : ∀ e ∈ entries.filterMap AuditEntry.rescind?, (AuditEntry.rescind e).Steady := by
    intro e he
    exact hsteady _ (AuditEntry.mem_of_mem_filterMap AuditEntry.rescind?_eq_some_iff he)
  obtain ⟨events, hreadEvents, heventsPage⟩ := readAll_firstBy EventRow.toLogRow
    Event.row EventRow.event AuditEntry.event (fun e he => (hevent e he).event_row)
    (fun _ _ => rfl) hevent n
  obtain ⟨corrections, hreadCorrections, hcorrectionsPage⟩ := readAll_firstBy id Entry.row
    LogRow.entry AuditEntry.correction (fun e he => (hcorrection e he).entry_row)
    (fun _ _ => rfl) hcorrection n
  obtain ⟨rescinds, hreadRescinds, hrescindsPage⟩ := readAll_firstBy id Entry.row LogRow.entry
    AuditEntry.rescind (fun e he => (hrescind e he).entry_row) (fun _ _ => rfl) hrescind n
  rw [← hevents] at hreadEvents
  rw [← hcorrections] at hreadCorrections
  rw [← hrescinds] at hreadRescinds
  have haudit : s.audit key n = .ok (firstBy newestEntry n (events.map AuditEntry.event ++
      (corrections.map AuditEntry.correction ++ rescinds.map AuditEntry.rescind))) := by
    have hevents' : readAll EventRow.event (newest EventRow.toLogRow s.events key n) =
        .ok events := hreadEvents
    have hcorrections' : readAll LogRow.entry (newest id s.corrections key n) =
        .ok corrections := hreadCorrections
    have hrescinds' : readAll LogRow.entry (newest id s.rescinds key n) =
        .ok rescinds := hreadRescinds
    rw [audit, hevents', hcorrections', hrescinds']
    rfl
  rw [haudit, heventsPage, hcorrectionsPage, hrescindsPage]
  rw [firstBy_parts newestEntry_total newestEntry_trans (newestEntry_anti hpos)
    (AuditEntry.perm_of_logs entries)]

end Store

end DatedLedger

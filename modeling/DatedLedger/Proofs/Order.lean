import DatedLedger.Order
import Mathlib.Data.List.Sort

/-!
# Lists put in order

Putting a list in order is the library's insertion sort; where any two entries can be
compared it comes to the library's stable merge sort.  What is left to say is how it gets on
with leaving entries out and with taking the first of them.
-/

namespace DatedLedger

section SortBy

variable {α : Type} {le : α → α → Bool} {x : α} {xs ys : List α}

theorem insertBy_eq_orderedInsert (le : α → α → Bool) (x : α) (xs : List α) :
    insertBy le x xs = xs.orderedInsert (fun a b => le a b) x := by
  induction xs with
  | nil => rfl
  | cons y ys ih => rw [insertBy, ih, List.orderedInsert_cons]

theorem sortBy_eq_insertionSort (le : α → α → Bool) (xs : List α) :
    sortBy le xs = xs.insertionSort fun a b => le a b := by
  induction xs with
  | nil => rfl
  | cons x xs ih => rw [sortBy, insertBy_eq_orderedInsert, ih, List.insertionSort_cons]

/-- Ordering loses nothing and adds nothing. -/
theorem perm_sortBy (le : α → α → Bool) (xs : List α) : (sortBy le xs).Perm xs :=
  sortBy_eq_insertionSort le xs ▸ List.perm_insertionSort _ xs

@[simp] theorem mem_sortBy : x ∈ sortBy le xs ↔ x ∈ xs :=
  (perm_sortBy le xs).mem_iff

/-- A list that is in order stays as it is. -/
theorem sortBy_eq_self (h : xs.Pairwise fun a b => le a b) : sortBy le xs = xs :=
  (sortBy_eq_insertionSort le xs).trans h.insertionSort_eq

/-- What entries stand for is ordered as the entries are. -/
theorem sortBy_map {β : Type} {le' : β → β → Bool} {f : α → β}
    (h : ∀ x ∈ xs, ∀ y ∈ xs, le' (f x) (f y) = le x y) :
    sortBy le' (xs.map f) = (sortBy le xs).map f := by
  rw [sortBy_eq_insertionSort, sortBy_eq_insertionSort]
  refine (List.map_insertionSort _ _ f xs fun x hx y hy => ?_).symm
  rw [h x hx y hy]

/-- The first entries after an insertion come from the first entries before it. -/
theorem take_insertBy (le : α → α → Bool) (x : α) (xs : List α) (n : Nat) :
    (insertBy le x xs).take n = (insertBy le x (xs.take n)).take n := by
  induction xs generalizing n with
  | nil => rw [List.take_nil]
  | cons y ys ih =>
    cases n with
    | zero => rfl
    | succ n =>
      have hcut : (y :: ys.take n).take n = (y :: ys).take n := by
        rw [← List.take_succ_cons, List.take_take, Nat.min_eq_left (Nat.le_succ n)]
      rw [List.take_succ_cons, insertBy, insertBy]
      split
      next => rw [List.take_succ_cons, List.take_succ_cons, hcut]
      next => rw [List.take_succ_cons, List.take_succ_cons, ih]

/-- An insertion between the entries that come before and those that do not. -/
theorem insertBy_append {front back : List α} (hfront : ∀ y ∈ front, !le x y)
    (hback : ∀ y ∈ back, le x y) : insertBy le x (front ++ back) = front ++ x :: back := by
  induction front with
  | nil =>
    cases back with
    | nil => rfl
    | cons y ys => exact if_pos (hback y List.mem_cons_self)
  | cons y ys ih =>
    obtain ⟨hy, hys⟩ := List.forall_mem_cons.mp hfront
    rw [List.cons_append, insertBy, if_neg (by simpa using hy), ih hys, List.cons_append]

/-! ## Orders that compare any two entries -/

variable (total : ∀ a b, le a b || le b a) (trans : ∀ a b c, le a b → le b c → le a c)
include total trans

/-- One entry more stands between those that come before it and those that do not. -/
theorem exists_mergeSort_cons (x : α) (xs : List α) :
    ∃ front back, (x :: xs).mergeSort le = front ++ x :: back ∧ xs.mergeSort le = front ++ back ∧
      (∀ y ∈ front, !le x y) ∧ ∀ y ∈ back, le x y := by
  obtain ⟨front, back, hcons, hrest, hfront⟩ := List.mergeSort_cons trans total x xs
  have hsorted := List.pairwise_mergeSort trans total (x :: xs)
  rw [hcons] at hsorted
  exact ⟨front, back, hcons, hrest, hfront,
    (List.pairwise_cons.mp (List.pairwise_append.mp hsorted).2.1).1⟩

/-- The order is that of the library's merge sort. -/
theorem sortBy_eq_mergeSort (xs : List α) : sortBy le xs = xs.mergeSort le := by
  induction xs with
  | nil => rw [sortBy, List.mergeSort_nil]
  | cons x xs ih =>
    obtain ⟨front, back, hcons, hrest, hfront, hback⟩ := exists_mergeSort_cons total trans x xs
    rw [sortBy, ih, hrest, hcons, insertBy_append hfront hback]

/-- Every entry may stand before all that follow it. -/
theorem pairwise_sortBy (xs : List α) : (sortBy le xs).Pairwise fun a b => le a b :=
  sortBy_eq_mergeSort total trans xs ▸ List.pairwise_mergeSort trans total xs

/-- Leaving entries out before they are ordered comes to leaving them out afterwards. -/
theorem sortBy_filter (p : α → Bool) (xs : List α) :
    sortBy le (xs.filter p) = (sortBy le xs).filter p := by
  induction xs with
  | nil => rfl
  | cons x xs ih =>
    obtain ⟨front, back, hcons, hrest, hfront, hback⟩ := exists_mergeSort_cons total trans x xs
    rw [sortBy_eq_mergeSort total trans xs, hrest, List.filter_append] at ih
    rw [sortBy_eq_mergeSort total trans (x :: xs), hcons, List.filter_append]
    by_cases hx : p x
    · rw [List.filter_cons_of_pos hx, List.filter_cons_of_pos hx, sortBy, ih]
      exact insertBy_append (fun y hy => hfront y (List.mem_of_mem_filter hy))
        fun y hy => hback y (List.mem_of_mem_filter hy)
    · rw [List.filter_cons_of_neg hx, List.filter_cons_of_neg hx, ih]

/-- Among entries of which only one may stand in front of the other, the order in which they are
listed plays no part. -/
theorem sortBy_eq_of_perm (anti : ∀ a ∈ xs, ∀ b ∈ xs, le a b → le b a → a = b)
    (hperm : xs.Perm ys) : sortBy le xs = sortBy le ys := by
  have hsorted := (perm_sortBy le xs).trans (hperm.trans (perm_sortBy le ys).symm)
  refine hsorted.eq_of_pairwise ?_ (pairwise_sortBy total trans xs)
    (pairwise_sortBy total trans ys)
  intro a b ha hb hab hba
  exact anti a (mem_sortBy.mp ha) b (mem_sortBy.mp (hsorted.mem_iff.mpr hb)) hab hba

end SortBy

end DatedLedger

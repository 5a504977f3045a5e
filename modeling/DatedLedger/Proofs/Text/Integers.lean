import DatedLedger.Proofs.Text.Decimal

/-!
# Integers read back

The decimal text of an integer holds no blanks, so it comes back from a text that has
blanks around it, and it is read as the integer.
-/

namespace DatedLedger

namespace Text

variable {front cs back : List Char}

/-! ## Blanks around a text -/

theorem skipBlanks_of_forall (h : ∀ c ∈ cs, isBlank c = false) : skipBlanks cs = cs := by
  cases cs with
  | nil => rfl
  | cons c cs => exact skipBlanks_cons (h c List.mem_cons_self) cs

/-- A text without blanks is what is left of it when there are blanks around it. -/
theorem trim_append (hfront : ∀ c ∈ front, isBlank c) (hback : ∀ c ∈ back, isBlank c)
    (hcs : ∀ c ∈ cs, isBlank c = false) (hne : cs ≠ []) : trim (front ++ cs ++ back) = cs := by
  have hahead : skipBlanks (front ++ cs ++ back) = cs ++ back := by
    obtain ⟨c, ds, rfl⟩ := List.exists_cons_of_ne_nil hne
    rw [List.append_assoc, skipBlanks_append hfront, List.cons_append,
      skipBlanks_cons (hcs c List.mem_cons_self)]
  have hbehind : skipBlanks (cs ++ back).reverse = cs.reverse := by
    rw [List.reverse_append, skipBlanks_append fun c hc => hback c (List.mem_reverse.mp hc),
      skipBlanks_of_forall fun c hc => hcs c (List.mem_reverse.mp hc)]
  rw [trim, hahead, hbehind, List.reverse_reverse]

/-! ## Integers -/

variable {n : Nat} {i : Int}

theorem all_isDigit_digits (n : Nat) : (digits n).all Char.isDigit :=
  List.all_eq_true.mpr fun _ hc => isDigit_of_mem_digits hc

theorem digits_ne_cons {c : Char} (hc : ¬c.isDigit) (n : Nat) (cs : List Char) :
    digits n ≠ c :: cs := by
  intro h
  exact hc (isDigit_of_mem_digits (n := n) (by simp [h]))

theorem integer_ne_nil (i : Int) : integer i ≠ [] := by
  rw [integer]
  split
  · exact List.cons_ne_nil _ _
  · exact digits_ne_nil _

theorem isBlank_eq_false_of_mem_integer {c : Char} (hc : c ∈ integer i) : isBlank c = false := by
  rw [integer] at hc
  split at hc
  next =>
    rcases List.mem_cons.mp hc with rfl | hc
    · decide
    · exact isBlank_eq_false_of_isDigit (isDigit_of_mem_digits hc)
  next => exact isBlank_eq_false_of_isDigit (isDigit_of_mem_digits hc)

theorem trim_integer (hfront : ∀ c ∈ front, isBlank c) (hback : ∀ c ∈ back, isBlank c) (i : Int) :
    trim (front ++ integer i ++ back) = integer i :=
  trim_append hfront hback (fun _ hc => isBlank_eq_false_of_mem_integer hc) (integer_ne_nil i)

theorem readNat?_digits (n : Nat) : readNat? (digits n) = some n := by
  have hempty : (digits n).isEmpty = false := List.isEmpty_eq_false_iff.mpr (digits_ne_nil n)
  simp [readNat?, hempty, all_isDigit_digits, natValue_digits]

/-- The decimal text of an integer is read as that integer. -/
theorem readInt?_integer (i : Int) : readInt? (integer i) = some i := by
  by_cases hneg : i < 0
  · have hvalue : -(i.natAbs : Int) = i := by omega
    rw [integer, if_pos hneg, readInt?, readNat?_digits]
    exact congrArg some hvalue
  · have hvalue : (i.natAbs : Int) = i := by omega
    rw [integer, if_neg hneg, readInt?]
    · rw [readNat?_digits]
      exact congrArg some hvalue
    · exact fun cs => digits_ne_cons (by decide) i.natAbs cs
    · exact fun cs => digits_ne_cons (by decide) i.natAbs cs

end Text

end DatedLedger

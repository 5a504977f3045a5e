import DatedLedger.Proofs.Json.Numbers

/-!
# Canonical text read back

The machine that reads JSON, started in front of the canonical text of a value, ends
behind it with that value complete, except that each number is what its own text is
read as.  A numeral is complete only when the next character does not belong to it, so
all statements are about the text together with what follows it.  Where all numbers
are read back from their texts, as integers are, the text stands for the value; and
the canonical text of an integral payload is that of no other payload.
-/

namespace DatedLedger

namespace Json

open Text

/-! ## Values with their numbers read -/

mutual

/-- The value with every number replaced by what its text is read as; none when one is not read. -/
def Value.reread? : Value → Option Value
  | .num n => (Numeral.read? (numberText n)).map .num
  | .arr items => (rereadItems? items).map .arr
  | .obj members => (rereadMembers? members).map .obj
  | v => some v

/-- The items with every number replaced by what its text is read as. -/
def rereadItems? : List Value → Option (List Value)
  | [] => some []
  | v :: rest => v.reread?.bind fun w => (rereadItems? rest).map fun rest => w :: rest

/-- The members with every number replaced by what its text is read as. -/
def rereadMembers? : Members → Option Members
  | [] => some []
  | (name, v) :: rest =>
    v.reread?.bind fun w => (rereadMembers? rest).map fun rest => (name, w) :: rest

end

mutual

theorem Value.reread?_of_steady (v : Value) (hv : v.Every Number.Steady) : v.reread? = some v := by
  match v with
  | .null => rfl
  | .bool _ => rfl
  | .num n =>
    have hread : Numeral.read? (numberText n) = some n := hv
    rw [Value.reread?, hread]
    rfl
  | .str _ => rfl
  | .arr items =>
    rw [Value.reread?, rereadItems?_of_steady items hv]
    rfl
  | .obj members =>
    rw [Value.reread?, rereadMembers?_of_steady members hv]
    rfl

theorem rereadItems?_of_steady (items : List Value) (h : EveryItem Number.Steady items) :
    rereadItems? items = some items := by
  match items with
  | [] => rfl
  | v :: rest =>
    rw [rereadItems?, v.reread?_of_steady h.1, rereadItems?_of_steady rest h.2]
    rfl

theorem rereadMembers?_of_steady (members : Members) (h : EveryMember Number.Steady members) :
    rereadMembers? members = some members := by
  match members with
  | [] => rfl
  | (name, v) :: rest =>
    rw [rereadMembers?, v.reread?_of_steady h.1, rereadMembers?_of_steady rest h.2]
    rfl

end

mutual

/-- Only the text of a value without doubles is read as that value. -/
theorem Value.eq_of_reread?_eq_some (v : Value) {w : Value} (hw : w.Every Number.IsInteger)
    (h : v.reread? = some w) : v = w := by
  match v with
  | .null => exact Option.some.inj h
  | .bool _ => exact Option.some.inj h
  | .num n =>
    obtain ⟨m, hm, rfl⟩ := Option.map_eq_some_iff.mp h
    cases m with
    | int i hfits => exact congrArg Value.num (eq_int_of_read?_numberText hm)
    | real x => exact hw.elim
  | .str _ => exact Option.some.inj h
  | .arr items =>
    obtain ⟨read, hread, rfl⟩ := Option.map_eq_some_iff.mp h
    exact congrArg Value.arr (eq_of_rereadItems?_eq_some items hw hread)
  | .obj members =>
    obtain ⟨read, hread, rfl⟩ := Option.map_eq_some_iff.mp h
    exact congrArg Value.obj (eq_of_rereadMembers?_eq_some members hw hread)

theorem eq_of_rereadItems?_eq_some (items : List Value) {read : List Value}
    (hread : EveryItem Number.IsInteger read) (h : rereadItems? items = some read) :
    items = read := by
  match items with
  | [] => exact Option.some.inj h
  | v :: rest =>
    obtain ⟨w, hw, hrest⟩ := Option.bind_eq_some_iff.mp h
    obtain ⟨readRest, hreadRest, rfl⟩ := Option.map_eq_some_iff.mp hrest
    rw [v.eq_of_reread?_eq_some hread.1 hw, eq_of_rereadItems?_eq_some rest hread.2 hreadRest]

theorem eq_of_rereadMembers?_eq_some (members : Members) {read : Members}
    (hread : EveryMember Number.IsInteger read) (h : rereadMembers? members = some read) :
    members = read := by
  match members with
  | [] => exact Option.some.inj h
  | (name, v) :: rest =>
    obtain ⟨w, hw, hrest⟩ := Option.bind_eq_some_iff.mp h
    obtain ⟨readRest, hreadRest, rfl⟩ := Option.map_eq_some_iff.mp hrest
    rw [v.eq_of_reread?_eq_some hread.1 hw, eq_of_rereadMembers?_eq_some rest hread.2 hreadRest]

end

/-! ## The machine on the rest of a text -/

namespace Reader

/-- The value of a text whose rest is given, from where the machine stands. -/
def run? (r : Reader) (cs : List Char) : Option Value := do
  (← cs.foldlM step? r).finish?

theorem read?_eq_run? (text : String) : read? text = start.run? text.toList := rfl

variable {scan n : Scan} {phase q : Phase} {t : Token} {c : Char} {rest : List Char}

theorem run?_cons (r : Reader) (c : Char) (rest : List Char) :
    r.run? (c :: rest) = (r.step? c).bind fun r => r.run? rest := by
  rw [run?, List.foldlM_cons]
  exact Option.bind_assoc (r.step? c) _ _

/-- A character that completes no token only moves the machine inside a token. -/
theorem run?_quiet (h : scan.step? c = some (n, [])) :
    run? ⟨scan, phase⟩ (c :: rest) = run? ⟨n, phase⟩ rest := by
  simp [run?_cons, step?, h, take?]

theorem run?_token (h : scan.step? c = some (n, [t])) (hq : phase.step? t = some q) :
    run? ⟨scan, phase⟩ (c :: rest) = run? ⟨n, q⟩ rest := by
  simp [run?_cons, step?, h, take?, hq]

/-- The text that follows a numeral does not go on with a character of numerals. -/
def EndsNumeral (rest : List Char) : Prop :=
  ∀ c ∈ rest.head?, Scan.isNumeral c = false

theorem endsNumeral_nil : EndsNumeral [] := by
  simp [EndsNumeral]

theorem endsNumeral_cons (h : Scan.isNumeral c = false) : EndsNumeral (c :: rest) := by
  simp [EndsNumeral, h]

/-- A numeral is complete where its characters end. -/
theorem run?_numeral_end {seen : List Char} (ht : Scan.numeralToken? seen = some t)
    (hq : phase.step? t = some q) (hrest : EndsNumeral rest) :
    run? ⟨.numeral seen, phase⟩ rest = run? ⟨.between, q⟩ rest := by
  cases rest with
  | nil => simp [run?, finish?, Scan.finish?, ht, hq]
  | cons c rest =>
    have hc : Scan.isNumeral c = false := hrest c rfl
    rw [run?_cons, run?_cons]
    congr 1
    -- The character is read as the start of the next token in both cases.
    cases hstart : Scan.start? c with
    | none => simp [step?, Scan.step?, hc, ht, hstart]
    | some found => simp [step?, Scan.step?, hc, ht, hstart, take?, hq]

theorem run?_numeral_fail {seen : List Char} (ht : Scan.numeralToken? seen = none)
    (hrest : EndsNumeral rest) : run? ⟨.numeral seen, phase⟩ rest = none := by
  cases rest with
  | nil => simp [run?, finish?, Scan.finish?, ht]
  | cons c rest =>
    have hc : Scan.isNumeral c = false := hrest c rfl
    simp [run?_cons, step?, Scan.step?, hc, ht]

theorem run?_numeral_append {seen cs : List Char} (hcs : ∀ c ∈ cs, Scan.isNumeral c) :
    run? ⟨.numeral seen, phase⟩ (cs ++ rest) =
      run? ⟨.numeral (cs.reverse ++ seen), phase⟩ rest := by
  induction cs generalizing seen with
  | nil => rfl
  | cons c cs ih =>
    obtain ⟨hc, hcs⟩ := List.forall_mem_cons.mp hcs
    have hstep : (Scan.numeral seen).step? c = some (.numeral (c :: seen), []) := by
      simp [Scan.step?, hc]
    rw [List.cons_append, run?_quiet hstep, ih hcs, List.reverse_cons, List.append_assoc]
    rfl

theorem isSpace_eq_false_of_isNumeral (hc : Scan.isNumeral c) : Scan.isSpace c = false := by
  rw [← Bool.not_eq_true]
  intro hspace
  simp only [Scan.isSpace, Bool.or_eq_true, decide_eq_true_eq] at hspace
  rcases hspace with ((rfl | rfl) | rfl) | rfl <;> exact absurd hc (by decide)

/-- No token starts with a character of numerals but a digit or a minus sign. -/
theorem start?_eq_none_of_isNumeral (hc : Scan.isNumeral c) (hfirst : ¬(c.isDigit ∨ c = '-')) :
    Scan.start? c = none := by
  rw [not_or] at hfirst
  simp only [Scan.isNumeral, Bool.or_eq_true, decide_eq_true_eq] at hc
  rcases hc with ((((hdigit | hminus) | rfl) | rfl) | rfl) | rfl
  · exact absurd hdigit hfirst.1
  · exact absurd hminus hfirst.2
  all_goals decide

/-- Characters of numerals are read as the number they denote, or not at all. -/
theorem run?_numeral {cs : List Char} (hne : cs ≠ []) (hcs : ∀ c ∈ cs, Scan.isNumeral c)
    (next : Number → Phase) (hq : ∀ n, phase.step? (.scalar (.num n)) = some (next n))
    (hrest : EndsNumeral rest) :
    run? ⟨.between, phase⟩ (cs ++ rest) =
      (Numeral.read? cs).bind fun n => run? ⟨.between, next n⟩ rest := by
  obtain ⟨c, ds, rfl⟩ := List.exists_cons_of_ne_nil hne
  obtain ⟨hc, hds⟩ := List.forall_mem_cons.mp hcs
  have hspace := isSpace_eq_false_of_isNumeral hc
  by_cases hfirst : c.isDigit ∨ c = '-'
  · have hstep : Scan.between.step? c = some (.numeral [c], []) := by
      have hmark : (c.isDigit || decide (c = '-')) = true := by
        simpa using hfirst
      simp [Scan.step?, Scan.start?, hspace, hmark]
    have hseen : (ds.reverse ++ [c]).reverse = c :: ds := by simp
    rw [List.cons_append, run?_quiet hstep, run?_numeral_append hds]
    cases hread : Numeral.read? (c :: ds) with
    | none =>
      have ht : Scan.numeralToken? (ds.reverse ++ [c]) = none := by
        rw [Scan.numeralToken?, hseen, hread]
        rfl
      exact run?_numeral_fail ht hrest
    | some n =>
      have ht : Scan.numeralToken? (ds.reverse ++ [c]) = some (.scalar (.num n)) := by
        rw [Scan.numeralToken?, hseen, hread]
        rfl
      exact run?_numeral_end ht (hq n) hrest
  · rw [Numeral.read?_eq_none_of_first hfirst, List.cons_append, run?_cons]
    simp [step?, Scan.step?, start?_eq_none_of_isNumeral hc hfirst]

/-! ## Strings -/

theorem hexValue?_hexDigit {d : Nat} (hd : d < 16) : Scan.hexValue? (hexDigit d) = some d := by
  have hall : ∀ d < 16, Scan.hexValue? (hexDigit d) = some d := by decide
  exact hall d hd

theorem escaped_step {seen : List Char} {d : Char} (hu : c ≠ 'u')
    (hd : Scan.escaped? c = some d) :
    (Scan.escape seen).step? c = some (.string (d :: seen), []) := by
  simp [Scan.step?, hu, hd]

theorem run?_escaped {seen : List Char} {d : Char} (hu : c ≠ 'u')
    (hd : Scan.escaped? c = some d) :
    run? ⟨.string seen, phase⟩ ('\\' :: c :: rest) = run? ⟨.string (d :: seen), phase⟩ rest := by
  have hmark : (Scan.string seen).step? '\\' = some (.escape seen, []) := by
    simp [Scan.step?]
  rw [run?_quiet hmark, run?_quiet (escaped_step hu hd)]

/-- A control character is read back from its four hexadecimal digits. -/
theorem run?_unit {seen : List Char} (hc : c.toNat < 0x20) :
    run? ⟨.string seen, phase⟩
        ('\\' :: 'u' :: '0' :: '0' :: hexDigit (c.toNat / 16) :: hexDigit (c.toNat % 16) :: rest) =
      run? ⟨.string (c :: seen), phase⟩ rest := by
  have hhigh := hexValue?_hexDigit (d := c.toNat / 16) (by omega)
  have hlow := hexValue?_hexDigit (d := c.toNat % 16) (by omega)
  have hzero : Scan.hexValue? '0' = some 0 := by decide
  have hvalue : 16 * (c.toNat / 16) + c.toNat % 16 = c.toNat := by omega
  have hend : Scan.endUnit? seen none c.toNat = some (.string (c :: seen)) := by
    have hlead : ¬0xD800 ≤ c.toNat := by omega
    have htrail : ¬0xDC00 ≤ c.toNat := by omega
    simp [Scan.endUnit?, hlead, htrail]
  rw [run?_quiet (n := .escape seen) (by simp [Scan.step?]),
    run?_quiet (n := .unit seen none 4 0) (by simp [Scan.step?]),
    run?_quiet (n := .unit seen none 3 0) (by simp [Scan.step?, hzero]),
    run?_quiet (n := .unit seen none 2 0) (by simp [Scan.step?, hzero]),
    run?_quiet (n := .unit seen none 1 (c.toNat / 16)) (by simp [Scan.step?, hhigh]),
    run?_quiet (n := .string (c :: seen)) (by simp [Scan.step?, hlow, hvalue, hend])]

/-- The characters that are written as a mark and a letter, with those letters. -/
def marked : List (Char × Char) :=
  [('"', '"'), ('\\', '\\'), ('\x08', 'b'), ('\x0c', 'f'), ('\n', 'n'), ('\r', 'r'), ('\t', 't')]

theorem escape_of_mem_marked {m : Char × Char} (hm : m ∈ marked) :
    m.2 ≠ 'u' ∧ Scan.escaped? m.2 = some m.1 ∧ escape m.1 = ['\\', m.2] := by
  have hall : marked.all fun m =>
      m.2 ≠ 'u' ∧ Scan.escaped? m.2 = some m.1 ∧ escape m.1 = ['\\', m.2] := by decide
  exact of_decide_eq_true (List.all_eq_true.mp hall m hm)

/-- A character is written as a mark and a letter, as a code unit, or as itself. -/
theorem escape_cases (c : Char) :
    (∃ e, e ≠ 'u' ∧ Scan.escaped? e = some c ∧ escape c = ['\\', e]) ∨
      c.toNat < 0x20 ∧ escape c =
        ['\\', 'u', '0', '0', hexDigit (c.toNat / 16), hexDigit (c.toNat % 16)] ∨
      c ≠ '"' ∧ c ≠ '\\' ∧ ¬c.toNat < 0x20 ∧ escape c = [c] := by
  by_cases hc : c ∈ marked.map Prod.fst
  · obtain ⟨m, hm, rfl⟩ := List.mem_map.mp hc
    exact .inl ⟨m.2, escape_of_mem_marked hm⟩
  · simp only [marked, List.map_cons, List.map_nil, List.mem_cons, List.not_mem_nil, or_false,
      not_or] at hc
    obtain ⟨hquote, hmark, hb, hf, hn, hr, ht⟩ := hc
    right
    by_cases hcontrol : c.toNat < 0x20
    · left
      simp only [escape, hquote, hmark, hb, hf, hn, hr, ht, hcontrol, if_true, if_false, and_self]
    · right
      simp only [escape, hquote, hmark, hb, hf, hn, hr, ht, hcontrol, if_false, ne_eq,
        not_false_eq_true, and_self]

theorem run?_escape_append {seen : List Char} (c : Char) :
    run? ⟨.string seen, phase⟩ (escape c ++ rest) = run? ⟨.string (c :: seen), phase⟩ rest := by
  rcases escape_cases c with ⟨e, hu, he, hc⟩ | ⟨hcontrol, hc⟩ | ⟨hquote, hmark, hcontrol, hc⟩
  · rw [hc]
    exact run?_escaped hu he
  · rw [hc]
    exact run?_unit hcontrol
  · have hstep : (Scan.string seen).step? c = some (.string (c :: seen), []) := by
      simp [Scan.step?, hquote, hmark, hcontrol]
    rw [hc]
    exact run?_quiet hstep

theorem run?_flatMap_escape_append {seen cs : List Char} :
    run? ⟨.string seen, phase⟩ (cs.flatMap escape ++ rest) =
      run? ⟨.string (cs.reverse ++ seen), phase⟩ rest := by
  induction cs generalizing seen with
  | nil => rfl
  | cons c cs ih =>
    rw [List.flatMap_cons, List.append_assoc, run?_escape_append, ih, List.reverse_cons,
      List.append_assoc]
    rfl

theorem run?_stringText_append {s : String} (hq : phase.step? (.string s) = some q) :
    run? ⟨.between, phase⟩ (stringText s ++ rest) = run? ⟨.between, q⟩ rest := by
  have hopen : Scan.between.step? '"' = some (.string [], []) := rfl
  have hclose : (Scan.string s.toList.reverse).step? '"' = some (.between, [.string s]) := by
    simp [Scan.step?]
  rw [stringText, List.cons_append, run?_quiet hopen, List.append_assoc,
    run?_flatMap_escape_append, List.append_nil]
  exact run?_token hclose hq

/-! ## Values -/

/-- The machine stands where a value of the given open arrays and objects may begin. -/
def Awaits (p : Phase) (outer : List Frame) : Prop :=
  p = .atValue outer ∨ ∃ around, p = .atFirstItem around ∧ outer = .array [] :: around

/-- The machine stands where a name may follow the given members. -/
def AwaitsName (p : Phase) (outer : List Frame) (members : Members) : Prop :=
  p = .atName outer members ∨ p = .atFirstName outer ∧ members = []

variable {outer : List Frame} {members : Members}

theorem Awaits.step?_eq (hp : Awaits phase outer) (ht : t ≠ .closeArray) :
    phase.step? t = Phase.begin? outer t := by
  rcases hp with rfl | ⟨around, rfl, rfl⟩
  · rfl
  · cases t with
    | closeArray => exact absurd rfl ht
    | _ => rfl

theorem AwaitsName.step?_string (hp : AwaitsName phase outer members) (name : String) :
    phase.step? (.string name) = some (.atColon outer members name) := by
  rcases hp with rfl | ⟨rfl, rfl⟩
  · rfl
  · rfl

/-- The word of a scalar is read as that scalar. -/
theorem run?_word_append {d : Char} {owed : List Char} {v : Value}
    (hq : phase.step? (.scalar v) = some q) :
    run? ⟨.word (d :: owed) v, phase⟩ (d :: (owed ++ rest)) = run? ⟨.between, q⟩ rest := by
  induction owed generalizing d with
  | nil =>
    have hstep : (Scan.word [d] v).step? d = some (.between, [.scalar v]) := by
      simp [Scan.step?]
    exact run?_token hstep hq
  | cons e owed ih =>
    have hstep : (Scan.word (d :: e :: owed) v).step? d = some (.word (e :: owed) v, []) := by
      simp [Scan.step?]
    rw [run?_quiet hstep]
    exact ih

theorem step?_openArray (hp : Awaits phase outer) (hdepth : outer.length < Phase.maxOpen) :
    phase.step? .openArray = some (.atFirstItem outer) := by
  rw [hp.step?_eq (t := .openArray) nofun]
  exact if_pos hdepth

theorem step?_openObject (hp : Awaits phase outer) (hdepth : outer.length < Phase.maxOpen) :
    phase.step? .openObject = some (.atFirstName outer) := by
  rw [hp.step?_eq (t := .openObject) nofun]
  exact if_pos hdepth

theorem step?_closeObject {name : String} {v : Value} (hbelow : ∀ m ∈ members, m.1 < name) :
    (Phase.complete (.object members name :: outer) v).step? .closeObject =
      some (.complete outer (.obj (members ++ [(name, v)]))) := by
  rw [← Members.insert_eq_append hbelow]
  rfl

theorem step?_comma_object {name : String} {v : Value} (hbelow : ∀ m ∈ members, m.1 < name) :
    (Phase.complete (.object members name :: outer) v).step? .comma =
      some (.atName outer (members ++ [(name, v)])) := by
  rw [← Members.insert_eq_append hbelow]
  rfl

theorem run?_closeArray (items : List Value) (v : Value) :
    run? ⟨.between, .complete (.array items :: outer) v⟩ (']' :: rest) =
      run? ⟨.between, .complete outer (.arr (items.reverse ++ [v]))⟩ rest := by
  rw [← List.reverse_cons]
  exact run?_token rfl rfl

theorem itemsText_cons_cons (v w : Value) (items : List Value) :
    itemsText (v :: w :: items) = valueText v ++ ',' :: itemsText (w :: items) := rfl

theorem membersText_cons_cons (name : String) (v : Value) (m : String × Value)
    (members : Members) :
    membersText ((name, v) :: m :: members) =
      stringText name ++ ':' :: (valueText v ++ ',' :: membersText (m :: members)) := rfl

mutual

/-- The text of a value is read as the value with its numbers read, whatever is open around it. -/
theorem run?_valueText_append {phase : Phase} {outer : List Frame} {rest : List Char}
    (v : Value) (hordered : v.Ordered) (hp : Awaits phase outer)
    (hdepth : outer.length + v.depth ≤ Phase.maxOpen) (hrest : EndsNumeral rest) :
    run? ⟨.between, phase⟩ (valueText v ++ rest) =
      v.reread?.bind fun w => run? ⟨.between, .complete outer w⟩ rest := by
  match v with
  | .null =>
    have hq := hp.step?_eq (t := .scalar .null) nofun
    rw [valueText, List.cons_append, run?_quiet (n := .word ['u', 'l', 'l'] .null) rfl]
    exact run?_word_append hq
  | .bool true =>
    have hq := hp.step?_eq (t := .scalar (.bool true)) nofun
    rw [valueText, List.cons_append, run?_quiet (n := .word ['r', 'u', 'e'] (.bool true)) rfl]
    exact run?_word_append hq
  | .bool false =>
    have hq := hp.step?_eq (t := .scalar (.bool false)) nofun
    rw [valueText, List.cons_append,
      run?_quiet (n := .word ['a', 'l', 's', 'e'] (.bool false)) rfl]
    exact run?_word_append hq
  | .num n =>
    have hread := run?_numeral (numberText_ne_nil n) (fun c hc => isNumeral_of_mem_numberText hc)
      (fun m => .complete outer (.num m)) (fun m => hp.step?_eq nofun) hrest
    rw [valueText, hread, Value.reread?, Option.bind_map]
    rfl
  | .str s => exact run?_stringText_append (hp.step?_eq nofun)
  | .arr [] =>
    have hopen := step?_openArray hp (by simp only [Value.depth] at hdepth; omega)
    rw [valueText, List.cons_append, run?_token rfl hopen]
    exact run?_token rfl rfl
  | .arr (v :: items) =>
    simp only [Value.depth] at hdepth
    have hopen := step?_openArray hp (by omega)
    have hfirst : Awaits (.atFirstItem outer) (.array [] :: outer) := .inr ⟨outer, rfl, rfl⟩
    rw [valueText, List.cons_append, List.append_assoc, run?_token rfl hopen, Value.reread?,
      Option.bind_map]
    exact run?_itemsText_append [] v items hordered hfirst (by omega)
  | .obj [] =>
    have hopen := step?_openObject hp (by simp only [Value.depth] at hdepth; omega)
    rw [valueText, List.cons_append, run?_token rfl hopen]
    exact run?_token rfl rfl
  | .obj ((name, v) :: members) =>
    simp only [Value.depth] at hdepth
    obtain ⟨hsorted, hmembers⟩ := ordered_obj_iff.mp hordered
    have hopen := step?_openObject hp (by omega)
    have hfirst : AwaitsName (.atFirstName outer) outer [] := .inr ⟨rfl, rfl⟩
    rw [valueText, List.cons_append, List.append_assoc, run?_token rfl hopen, Value.reread?,
      Option.bind_map]
    exact run?_membersText_append [] name v members (by simp) hsorted hmembers hfirst (by omega)
termination_by sizeOf v

/-- The rest of an array is read behind the items before it, which are kept latest first. -/
theorem run?_itemsText_append {phase : Phase} {outer : List Frame} {rest : List Char}
    (seen : List Value) (v : Value) (items : List Value) (hordered : OrderedItems (v :: items))
    (hp : Awaits phase (.array seen :: outer))
    (hdepth : outer.length + 1 + depthOfItems (v :: items) ≤ Phase.maxOpen) :
    run? ⟨.between, phase⟩ (itemsText (v :: items) ++ (']' :: rest)) =
      (rereadItems? (v :: items)).bind fun read =>
        run? ⟨.between, .complete outer (.arr (seen.reverse ++ read))⟩ rest := by
  simp only [depthOfItems] at hdepth
  have hinner : (Frame.array seen :: outer).length + v.depth ≤ Phase.maxOpen := by
    simp only [List.length_cons]
    omega
  match items with
  | [] =>
    rw [itemsText, run?_valueText_append v hordered.1 hp hinner (endsNumeral_cons (by decide)),
      rereadItems?, Option.bind_assoc]
    congr 1
    funext w
    exact run?_closeArray seen w
  | u :: items =>
    rw [itemsText_cons_cons, List.append_assoc, List.cons_append,
      run?_valueText_append v hordered.1 hp hinner (endsNumeral_cons (by decide)),
      rereadItems?, Option.bind_assoc]
    congr 1
    funext w
    have hnext : Awaits (.atValue (.array (w :: seen) :: outer)) (.array (w :: seen) :: outer) :=
      .inl rfl
    rw [run?_token (t := .comma) rfl rfl,
      run?_itemsText_append (w :: seen) u items hordered.2 hnext (by omega), Option.bind_map]
    simp only [List.reverse_cons, List.append_assoc, List.singleton_append, Function.comp_def]
termination_by sizeOf (v :: items)

/-- The rest of an object is read behind the members before it. -/
theorem run?_membersText_append {phase : Phase} {outer : List Frame} {rest : List Char}
    (seen : Members) (name : String) (v : Value) (members : Members)
    (hbelow : ∀ m ∈ seen, ∀ n ∈ (name, v) :: members, m.1 < n.1)
    (hsorted : Members.Sorted ((name, v) :: members))
    (hordered : OrderedMembers ((name, v) :: members)) (hp : AwaitsName phase outer seen)
    (hdepth : outer.length + 1 + depthOfMembers ((name, v) :: members) ≤ Phase.maxOpen) :
    run? ⟨.between, phase⟩ (membersText ((name, v) :: members) ++ ('}' :: rest)) =
      (rereadMembers? ((name, v) :: members)).bind fun read =>
        run? ⟨.between, .complete outer (.obj (seen ++ read))⟩ rest := by
  simp only [depthOfMembers] at hdepth
  have hfirst : ∀ m ∈ seen, m.1 < name := fun m hm => hbelow m hm (name, v) List.mem_cons_self
  have hinner : (Frame.object seen name :: outer).length + v.depth ≤ Phase.maxOpen := by
    simp only [List.length_cons]
    omega
  match members with
  | [] =>
    rw [membersText, List.append_assoc, run?_stringText_append (hp.step?_string name),
      List.cons_append, run?_token (t := .colon) rfl rfl,
      run?_valueText_append v hordered.1 (.inl rfl) hinner (endsNumeral_cons (by decide)),
      rereadMembers?, Option.bind_assoc]
    congr 1
    funext w
    exact run?_token (t := .closeObject) rfl (step?_closeObject hfirst)
  | (other, u) :: members =>
    rw [membersText_cons_cons, List.append_assoc, run?_stringText_append (hp.step?_string name),
      List.cons_append, run?_token (t := .colon) rfl rfl, List.append_assoc, List.cons_append,
      run?_valueText_append v hordered.1 (.inl rfl) hinner (endsNumeral_cons (by decide)),
      rereadMembers?, Option.bind_assoc]
    congr 1
    funext w
    obtain ⟨hname, hsortedRest⟩ := List.pairwise_cons.mp hsorted
    have hnext : AwaitsName (.atName outer (seen ++ [(name, w)])) outer (seen ++ [(name, w)]) :=
      .inl rfl
    have hbelowRest : ∀ m ∈ seen ++ [(name, w)], ∀ n ∈ (other, u) :: members, m.1 < n.1 := by
      simp only [List.forall_mem_append, List.forall_mem_singleton]
      exact ⟨fun m hm n hn => hbelow m hm n (List.mem_cons_of_mem _ hn), hname⟩
    rw [run?_token (t := .comma) rfl (step?_comma_object hfirst),
      run?_membersText_append (seen ++ [(name, w)]) other u members hbelowRest hsortedRest
        hordered.2 hnext (by omega), Option.bind_map]
    simp only [List.append_assoc, List.singleton_append, Function.comp_def]
termination_by sizeOf ((name, v) :: members)

end

end Reader

/-- The canonical text of a value that is not too deep is read as the value with its numbers
read. -/
theorem read?_canonical {v : Value} (hordered : v.Ordered) (hdepth : v.depth ≤ Phase.maxOpen) :
    read? (canonical v) = v.reread? := by
  have hstart : Reader.Awaits (.atValue []) [] := .inl rfl
  have hrun := Reader.run?_valueText_append v hordered hstart (by simpa using hdepth)
    Reader.endsNumeral_nil
  rw [List.append_nil] at hrun
  rw [Reader.read?_eq_run?, canonical, String.toList_ofList, Reader.start, hrun]
  exact Option.bind_fun_some _

/-- The canonical text of an integral value that is no deeper than a payload is read as that
value. -/
theorem read?_canonical_of_integral {v : Value} (hordered : v.Ordered) (hv : v.Integral)
    (hdepth : v.depth ≤ Payload.maxDepth) : read? (canonical v) = some v := by
  have hopen : v.depth ≤ Phase.maxOpen := hdepth.trans (by decide)
  have hsteady : v.Every Number.Steady :=
    Value.Every.mono (fun _ => Number.IsInteger.steady) v (v.integral_iff_every.mp hv)
  rw [read?_canonical hordered hopen, v.reread?_of_steady hsteady]

end Json

namespace Payload

theorem ofValue_obj (p : Payload) (ordered : (Json.Value.obj p.members).Ordered) :
    ofValue (.obj p.members) ordered = .ok p := by
  rw [ofValue, dif_pos p.shallow]

theorem Integral.steady {p : Payload} (hp : p.Integral) : p.Steady :=
  Json.EveryMember.mono (fun _ => Json.Number.IsInteger.steady) p.members
    (integral_iff_every.mp hp)

theorem read?_text (p : Payload) : Json.read? p.text = (Json.Value.obj p.members).reread? := by
  have hdepth : (Json.Value.obj p.members).depth ≤ Json.Phase.maxOpen := by
    have hshallow := p.shallow
    simp only [maxDepth, Json.Phase.maxOpen] at hshallow ⊢
    omega
  exact Json.read?_canonical p.ordered hdepth

/-- The text of a payload whose numbers are read back stands for that payload. -/
theorem parse_text {p : Payload} (hp : p.Steady) : parse p.text = .ok p := by
  have hread : Json.read? p.text = some (.obj p.members) :=
    (read?_text p).trans (Json.Value.reread?_of_steady _ hp)
  unfold parse
  split
  next hnone => simp [hread] at hnone
  next v hsome =>
    cases hread.symm.trans hsome
    exact ofValue_obj p _

/-- No other payload has the text of an integral one. -/
theorem eq_of_text_eq {p q : Payload} (hp : p.Integral) (h : q.text = p.text) : q = p := by
  have hread : (Json.Value.obj q.members).reread? = some (.obj p.members) := by
    rw [← read?_text, h, read?_text]
    exact Json.Value.reread?_of_steady _ hp.steady
  have hmembers : q.members = p.members := by
    injection Json.Value.eq_of_reread?_eq_some (w := .obj p.members) _
      (integral_iff_every.mp hp) hread
  cases p
  cases q
  cases hmembers
  rfl

/-- An integral payload has the same content as itself alone. -/
theorem Integral.same_iff {p q : Payload} (hp : p.Integral) : p.same q ↔ p = q := by
  rw [same, beq_iff_eq]
  constructor
  · intro h
    exact (eq_of_text_eq hp h.symm).symm
  · intro h
    rw [h]

end Payload

end DatedLedger

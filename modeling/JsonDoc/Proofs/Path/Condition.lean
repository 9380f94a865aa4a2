import JsonDoc.Proofs.Path.Token

/-!
# `JsonDoc.Proofs.Path.Condition`: the readers of conditions

The readers of conditions take exactly the texts of the grammar whose nesting is within the
budget. The budget of a chain of connectives shrinks along the chain, so both statements carry
what is left of it:

* `ConditionText.readCondition_append`: reading a condition with `k` connectives from the front
  of a text comes down to reading on after it, with `k` less to spend.
* `soundWithin`: what a reader makes of a chain that is already a text of the grammar is again
  one, and the nesting stays within what the chain had to spend in the first place.

`Ends` is the condition on what may follow: after blanks, one of a few marks.
-/

set_option autoImplicit false

namespace JsonDoc.Path.Grammar

open Number Text

/-! ### What follows -/

/-- After blanks, the text goes on with one of the marks. -/
def Ends (marks rest : List Char) : Prop := ∃ c tail, skipSpaces rest = c :: tail ∧ c ∈ marks

/-- The blanks of a path. -/
def spaces : List Char := [' ', '\t', '\r', '\n']

/-- Every blank is one of the four, so that what holds of blanks can be checked on a list. -/
theorem mem_spaces {c : Char} (h : isSpace c = true) : c ∈ spaces := by
  simpa [isSpace, spaces, or_assoc] using h

/-- A mark behind blanks ends a text in the sense of `Ends`. -/
theorem ends_append_cons {marks before rest : List Char} {c : Char} (hbefore : Blanks before)
    (hc : isSpace c = false) (mem : c ∈ marks) : Ends marks (before ++ c :: rest) :=
  ⟨c, rest, skipSpaces_append_cons hbefore hc, mem⟩

/-- More marks may follow where fewer do. -/
theorem Ends.mono {marks more rest : List Char} (h : Ends marks rest) (le : marks ⊆ more) :
    Ends more rest := by
  obtain ⟨c, tail, heq, hc⟩ := h
  exact ⟨c, tail, heq, le hc⟩

/-- A class with no blank and none of the marks does not go on. -/
theorem Ends.stops {marks rest : List Char} {p : Char → Bool} (h : Ends marks rest)
    (none : (spaces ++ marks).all (fun c => !p c) = true) : Stops p rest := by
  have hout : ∀ c ∈ spaces ++ marks, p c = false := by
    intro c hc
    have hc' := List.all_eq_true.1 none c hc
    simpa using hc'
  obtain ⟨c, tail, heq, hc⟩ := h
  obtain ⟨bs, hbs, hblanks⟩ := exists_blanks_append_skipSpaces rest
  rw [hbs, heq]
  -- The text goes on with its first blank, or with the mark if there is none.
  cases bs with
  | nil => exact stops_cons.2 (hout c (List.mem_append_right _ hc))
  | cons b bs =>
    have hb : b ∈ spaces := mem_spaces (hblanks b List.mem_cons_self)
    exact stops_cons.2 (hout b (List.mem_append_left _ hb))

/-! ### Fields -/

/-- A character with which a field could go on. -/
def continuesField (c : Char) : Bool := isNameChar c || c == '.'

/-- A point and a name are read if the name does not go on. -/
theorem readFieldName_append {cs rest : List Char} {name : String} (h : FieldNameText cs name)
    (stops : Stops isNameChar rest) : readFieldName (cs ++ rest) = .ok (some (name, rest)) := by
  obtain ⟨hname⟩ := h
  rw [List.cons_append, readFieldName, readName_append hname stops]
  rfl

/-- What is read as the next name of a field is a point and a name. -/
theorem exists_fieldNameText_of_readFieldName {cs rest : List Char} {name : String}
    (h : readFieldName cs = .ok (some (name, rest))) :
    ∃ pre, cs = pre ++ rest ∧ FieldNameText pre name := by
  rw [readFieldName.eq_def] at h
  split at h
  · next after =>
    cases hread : readName .fieldName after with
    | error stop =>
      rw [hread] at h
      cases h
    | ok found =>
      rw [hread] at h
      cases h
      obtain ⟨pre, rfl, hpre⟩ := exists_nameText_of_readName hread
      exact ⟨'.' :: pre, rfl, .intro hpre⟩
  · cases h

/-- A field is read whole if neither a name nor a point goes on. -/
theorem readField_append {cs rest : List Char} {field : Field} (h : FieldText cs field)
    (stops : Stops continuesField rest) {count : Nat} (enough : cs.length ≤ count) :
    readMany readFieldName count (cs ++ rest) = .ok (field, rest) := by
  -- The last name ends here, and no point begins another one.
  have nameless : Stops isNameChar rest := stops.mono fun c hc => by simp [continuesField, hc]
  have stop : readFieldName rest = .ok none := by
    rw [readFieldName.eq_def]
    split
    · exact absurd (stops_cons.1 stops) (by decide)
    · rfl
  refine readMany_append readFieldName_append ?_ h nameless stop enough
  intro cs name rest hname
  obtain ⟨hname⟩ := hname
  exact ⟨List.cons_ne_nil _ _, stops_cons.2 (by decide)⟩

/-! ### Tests -/

/-- The shortest test is for the candidate itself. -/
theorem testText_candidate : TestText ['@'] (.present []) := .present .nil

/-- The marks that may follow a term, after blanks. -/
def termMarks : List Char := [')', '&', '|']

/-- No comparison starts with a mark that follows a term, so a field in front of one is a test for
presence. -/
theorem readComparison?_eq_none_of_mem {c : Char} {rest : List Char} (h : c ∈ termMarks) :
    readComparison? (c :: rest) = none := by
  simp only [termMarks, List.mem_cons, List.not_mem_nil, or_false] at h
  obtain rfl | rfl | rfl := h <;> rfl

/-- The first character of a comparison. -/
theorem Comparison.exists_text_eq_cons (op : Comparison) :
    ∃ c tail, op.text = c :: tail ∧ c ∈ ['=', '!', '<', '>'] ∧ isSpace c = false := by
  cases op <;> exact ⟨_, _, rfl, by decide, by decide⟩

/-- A comparison is read up to its literal, whatever the text after its last blanks is. -/
theorem readTest_compare {cs before after more : List Char} {field : Field} {op : Comparison}
    (hfield : FieldText cs field) (hbefore : Blanks before) (hafter : Blanks after)
    (hmore : ∃ c tail, more = c :: tail ∧ isSpace c = false ∧ c ≠ '=') :
    readTest ('@' :: (cs ++ (before ++ (op.text ++ (after ++ more)))))
      = readLiteral more >>= fun x => pure (.compare field op x.1, x.2) := by
  obtain ⟨o, optail, hop, ho, hospace⟩ := Comparison.exists_text_eq_cons op
  obtain ⟨l, tail, rfl, hlspace, hleq⟩ := hmore
  have hends : Ends ['=', '!', '<', '>'] (before ++ (op.text ++ (after ++ l :: tail))) := by
    rw [hop]
    exact ends_append_cons hbefore hospace ho
  have hread := readField_append hfield (hends.stops (by decide)) (by simp :
    cs.length ≤ (cs ++ (before ++ (op.text ++ (after ++ l :: tail)))).length)
  have hskipOp : skipSpaces (before ++ (op.text ++ (after ++ l :: tail)))
      = op.text ++ (after ++ l :: tail) := by
    rw [hop]
    exact skipSpaces_append_cons hbefore hospace
  -- The comparison ends before its second character could be taken from the literal.
  have hstop : Stops (· == '=') (after ++ l :: tail) := by
    have hliteral : Ends [l] (after ++ l :: tail) :=
      ends_append_cons hafter hlspace List.mem_cons_self
    exact hliteral.stops (by simp [spaces, hleq])
  rw [readTest, hread, ok_bind]
  dsimp only
  rw [hskipOp, readComparison?_append op hstop]
  dsimp only
  rw [skipSpaces_append_cons hafter hlspace]

/-- A test is read if the text goes on with a mark that may follow a term. -/
theorem readTest_append {cs rest : List Char} {condition : Condition}
    (h : TestText cs condition) (ends : Ends termMarks rest) :
    readTest (cs ++ rest) = .ok (condition, rest) := by
  cases h with
  | @present cs field hfield =>
    have hread : readMany readFieldName (cs ++ rest).length (cs ++ rest) = .ok (field, rest) :=
      readField_append hfield (ends.stops (by decide)) (by simp)
    -- The mark that follows is none of a comparison.
    obtain ⟨c, tail, heq, hc⟩ := ends
    rw [List.cons_append, readTest, hread, ok_bind]
    dsimp only
    rw [heq, readComparison?_eq_none_of_mem hc]
    rfl
  | @compare cs before after lit field op literal hfield hbefore hafter hlit =>
    have htext : '@' :: (cs ++ before ++ op.text ++ after ++ lit) ++ rest
        = '@' :: (cs ++ (before ++ (op.text ++ (after ++ (lit ++ rest))))) := by
      simp
    -- A literal starts with neither a blank nor an `=`, so the comparison is read to its end.
    have hmore : ∃ c tail, lit ++ rest = c :: tail ∧ isSpace c = false ∧ c ≠ '=' := by
      obtain ⟨c, tail, rfl, hc⟩ := hlit.exists_cons
      exact ⟨c, tail ++ rest, rfl, hc⟩
    rw [htext, readTest_compare hfield hbefore hafter hmore,
      readLiteral_append hlit (ends.stops (by decide))]
    rfl

/-- What is read as a test is the text of one. -/
theorem exists_testText_of_readTest {cs rest : List Char} {condition : Condition}
    (h : readTest cs = .ok (condition, rest)) :
    ∃ pre, cs = pre ++ rest ∧ TestText pre condition := by
  rw [readTest.eq_def] at h
  split at h
  · next after =>
    simp only [bind_eq_ok_iff, Prod.exists] at h
    obtain ⟨field, after', hfield, h⟩ := h
    -- With no comparison after the field, the blanks behind it are left to what follows.
    obtain ⟨pre, rfl, hpre⟩ :=
      exists_sequenceText_of_readMany exists_fieldNameText_of_readFieldName hfield
    split at h
    · cases h
      exact ⟨'@' :: pre, rfl, .present hpre⟩
    · next op afterOp hop =>
      simp only [bind_eq_ok_iff, Prod.exists] at h
      obtain ⟨literal, rest', hlit, h⟩ := h
      cases h
      obtain ⟨before, hbefore, hbeforeBlanks⟩ := exists_blanks_append_skipSpaces after'
      obtain ⟨blanks, hafter, hafterBlanks⟩ := exists_blanks_append_skipSpaces afterOp
      obtain ⟨lit, hlitEq, hlitText⟩ := exists_literalText_of_readLiteral hlit
      refine ⟨'@' :: (pre ++ before ++ op.text ++ blanks ++ lit), ?_,
        .compare hpre hbeforeBlanks hafterBlanks hlitText⟩
      rw [hbefore, eq_append_of_readComparison? hop, hafter, hlitEq]
      simp
  · cases h

/-! ### Terms -/

/-- The candidate alone is a term of nesting zero. -/
theorem termText_candidate : TermText 0 ['@'] (.present []) := .test testText_candidate

/-- A term starts with the mark of the candidate or with a parenthesis. -/
theorem TermText.exists_cons {n : Nat} {cs : List Char} {condition : Condition}
    (h : TermText n cs condition) : ∃ c tail, cs = c :: tail ∧ isSpace c = false := by
  cases h with
  | test htest =>
    cases htest with
    | present => exact ⟨'@', _, rfl, by decide⟩
    | compare => exact ⟨'@', _, rfl, by decide⟩
  | group => exact ⟨'(', _, rfl, by decide⟩

/-- No conjunction starts with a blank. -/
theorem ConjunctionText.exists_cons {n k : Nat} {cs : List Char} {condition : Condition} :
    ConjunctionText n k cs condition → ∃ c tail, cs = c :: tail ∧ isSpace c = false
  | .term hterm => hterm.exists_cons
  | .and hleft _ _ _ => by
    obtain ⟨c, tail, rfl, hc⟩ := hleft.exists_cons
    exact ⟨c, _, rfl, hc⟩

/-- No condition starts with a blank. -/
theorem ConditionText.exists_cons {n k : Nat} {cs : List Char} {condition : Condition} :
    ConditionText n k cs condition → ∃ c tail, cs = c :: tail ∧ isSpace c = false
  | .conjunction hconjunction => hconjunction.exists_cons
  | .or hleft _ _ _ => by
    obtain ⟨c, tail, rfl, hc⟩ := hleft.exists_cons
    exact ⟨c, _, rfl, hc⟩

/-- The connectives of a chain count for its nesting. -/
theorem ConjunctionText.connectives_le {n k : Nat} {cs : List Char} {condition : Condition}
    (h : ConjunctionText n k cs condition) : k ≤ n := by
  cases h with
  | term => exact Nat.zero_le _
  | and => omega

/-- The nesting of a condition counts at least the connectives of its own chain. -/
theorem ConditionText.connectives_le {n k : Nat} {cs : List Char} {condition : Condition}
    (h : ConditionText n k cs condition) : k ≤ n := by
  cases h with
  | conjunction => exact Nat.zero_le _
  | or => omega

/-! ### Connectives -/

/-- The blanks in front of a connective are skipped up to its first character. -/
theorem skipSpaces_doubled {c : Char} {before after rest : List Char} (hc : isSpace c = false)
    (hbefore : Blanks before) :
    skipSpaces (before ++ [c, c] ++ after ++ rest) = c :: c :: (after ++ rest) := by
  have htext : before ++ [c, c] ++ after ++ rest = before ++ c :: c :: (after ++ rest) := by simp
  rw [htext, skipSpaces_append_cons hbefore hc]

/-- A connective ends what stands in front of it. -/
theorem ends_doubled {c : Char} {marks before after rest : List Char} (hc : isSpace c = false)
    (hbefore : Blanks before) (mem : c ∈ marks) :
    Ends marks (before ++ [c, c] ++ after ++ rest) :=
  ⟨c, _, skipSpaces_doubled hc hbefore, mem⟩

/-- A connective is taken together with the blanks on both sides of it. -/
theorem afterDoubled?_append {c : Char} {before after rest : List Char}
    (hc : isSpace c = false) (hbefore : Blanks before) (hafter : Blanks after)
    (stops : Stops isSpace rest) :
    afterDoubled? c (before ++ [c, c] ++ after ++ rest) = some rest := by
  have hskip : skipSpaces (before ++ [c, c] ++ after ++ rest) = c :: c :: (after ++ rest) :=
    skipSpaces_doubled hc hbefore
  rw [afterDoubled?, hskip]
  simp only [and_self, if_true, skipSpaces_append hafter, skipSpaces_of_stops stops]

/-- No connective is found where another mark comes next. -/
theorem afterDoubled?_eq_none {c : Char} {marks rest : List Char} (h : Ends marks rest)
    (hc : c ∉ marks) : afterDoubled? c rest = none := by
  obtain ⟨d, tail, heq, hd⟩ := h
  have hne : d ≠ c := by
    rintro rfl
    exact hc hd
  rw [afterDoubled?.eq_def, heq]
  split
  · next heq' =>
    cases heq'
    simp [hne]
  · rfl

/-- What is taken as a connective is one, with the blanks around it. -/
theorem exists_of_afterDoubled? {c : Char} {cs rest : List Char}
    (h : afterDoubled? c cs = some rest) :
    ∃ before after, cs = before ++ [c, c] ++ after ++ rest ∧ Blanks before ∧ Blanks after := by
  obtain ⟨before, hbefore, hbeforeBlanks⟩ := exists_blanks_append_skipSpaces cs
  rw [afterDoubled?.eq_def] at h
  split at h
  · next a b more heq =>
    obtain ⟨after, hafter, hafterBlanks⟩ := exists_blanks_append_skipSpaces more
    rw [Option.ite_none_right_eq_some, Option.some.injEq] at h
    obtain ⟨⟨rfl, rfl⟩, rfl⟩ := h
    refine ⟨before, after, ?_, hbeforeBlanks, hafterBlanks⟩
    conv => lhs; rw [hbefore, heq, hafter]
    simp
  · cases h

/-! ### Chains -/

/-- A conjunction within the budget. -/
def readConjunction (budget : Nat) (cs : List Char) :
    Except Stop (Condition × List Char) := do
  let (first, rest) ← readTerm budget cs
  readAnds budget first rest

/-- A condition is read as a conjunction and what `readOrs` makes of the rest. -/
theorem readCondition_eq (budget : Nat) (cs : List Char) :
    readCondition budget cs
      = readConjunction budget cs >>= fun x => readOrs budget x.1 x.2 := by
  simp [readCondition, readConjunction]

/-- A condition in parentheses is read with one less to spend. -/
theorem readTerm_group (budget : Nat) (cs : List Char) :
    readTerm (budget + 1) ('(' :: cs)
      = readCondition budget (skipSpaces cs) >>= fun x =>
          expectChar ')' .closingParen (skipSpaces x.2) >>= fun rest => pure (x.1, rest) := by
  simp [readTerm, readCondition]

/-- A test is read the same way whatever is left to spend. -/
theorem readTerm_candidate (budget : Nat) (cs : List Char) :
    readTerm budget ('@' :: cs) = readTest ('@' :: cs) := by
  cases budget with
  | zero => rfl
  | succ => rfl

/-- A test is read as a term within every budget. -/
theorem readTerm_test {budget : Nat} {cs rest : List Char} {condition : Condition}
    (h : TestText cs condition) (ends : Ends termMarks rest) :
    readTerm budget (cs ++ rest) = .ok (condition, rest) := by
  have hread := readTest_append h ends
  cases h with
  | present =>
    rw [List.cons_append] at hread ⊢
    rw [readTerm_candidate, hread]
  | compare =>
    rw [List.cons_append] at hread ⊢
    rw [readTerm_candidate, hread]

/-- With `&&` in front, one more term is read and joined. -/
theorem readAnds_succ {budget : Nat} {left : Condition} {cs rest : List Char}
    (h : afterDoubled? '&' cs = some rest) :
    readAnds (budget + 1) left cs
      = readTerm budget rest >>= fun x => readAnds budget (.and left x.1) x.2 := by
  rw [readAnds, h]

/-- With `||` in front, one more conjunction is read and joined. -/
theorem readOrs_succ {budget : Nat} {left : Condition} {cs rest : List Char}
    (h : afterDoubled? '|' cs = some rest) :
    readOrs (budget + 1) left cs
      = readConjunction budget rest >>= fun x => readOrs budget (.or left x.1) x.2 := by
  rw [readOrs, h]
  simp [readConjunction]

/-- A chain of `&&` ends where no `&&` comes next. -/
theorem readAnds_eq_self {budget : Nat} {left : Condition} {cs : List Char}
    (h : afterDoubled? '&' cs = none) : readAnds budget left cs = .ok (left, cs) := by
  cases budget with
  | zero => rw [readAnds, h]
  | succ => rw [readAnds, h]

/-- A chain of `||` ends where no `||` comes next. -/
theorem readOrs_eq_self {budget : Nat} {left : Condition} {cs : List Char}
    (h : afterDoubled? '|' cs = none) : readOrs budget left cs = .ok (left, cs) := by
  cases budget with
  | zero => rw [readOrs, h]
  | succ => rw [readOrs, h]

/-! ### Every text of the grammar is read

The three statements follow the derivation. A chain does not come to an end by itself, so what is
said of one is that reading it leaves the reader behind it, with its connectives spent.
-/

/-- The marks that may follow a conjunction, after blanks. -/
def conjunctionMarks : List Char := [')', '|']

mutual

/-- A term is read whole when its nesting is within the budget. -/
theorem TermText.readTerm_append {n budget : Nat} {cs rest : List Char} {condition : Condition}
    (within : n ≤ budget) (ends : Ends termMarks rest) :
    TermText n cs condition → readTerm budget (cs ++ rest) = .ok (condition, rest)
  | .test htest => readTerm_test htest ends
  | @TermText.group n k before cs after _ hbefore hcondition hafter => by
    -- The nesting of a group is positive, so there is one to spend.
    obtain ⟨budget, rfl⟩ : ∃ b, budget = b + 1 := ⟨budget - 1, by omega⟩
    have htext : '(' :: (before ++ cs ++ after ++ [')']) ++ rest
        = '(' :: (before ++ (cs ++ (after ++ ')' :: rest))) := by
      simp
    have hends : Ends [')'] (after ++ ')' :: rest) :=
      ends_append_cons hafter (by decide) (by decide)
    have hread : readCondition budget (cs ++ (after ++ ')' :: rest))
        = .ok (condition, after ++ ')' :: rest) := by
      rw [hcondition.readCondition_append (by omega) (hends.mono (by decide)),
        readOrs_eq_self (afterDoubled?_eq_none hends (by decide))]
    rw [htext, readTerm_group, skipSpaces_append_text hbefore hcondition.exists_cons, hread,
      ok_bind]
    show (expectChar ')' .closingParen (skipSpaces (after ++ ')' :: rest)) >>= _) = _
    rw [skipSpaces_append_cons hafter (by decide)]
    rfl

/-- Reading a conjunction from the front of a text comes down to reading on after it. -/
theorem ConjunctionText.readConjunction_append {n k budget : Nat} {cs rest : List Char}
    {condition : Condition} (within : n ≤ budget) (ends : Ends termMarks rest) :
    ConjunctionText n k cs condition →
    readConjunction budget (cs ++ rest) = readAnds (budget - k) condition rest
  | .term hterm => by
    rw [readConjunction, hterm.readTerm_append within ends]
    rfl
  | @ConjunctionText.and n k m cs before after ds left right hleft hbefore hafter hright => by
    have hk := hleft.connectives_le
    obtain ⟨c, tail, hds, hc⟩ := hright.exists_cons
    have hdouble : afterDoubled? '&' (before ++ ['&', '&'] ++ after ++ (ds ++ rest))
        = some (ds ++ rest) :=
      afterDoubled?_append (by decide) hbefore hafter (by rw [hds]; exact stops_cons.2 hc)
    have hends : Ends termMarks (before ++ ['&', '&'] ++ after ++ (ds ++ rest)) :=
      ends_doubled (by decide) hbefore (by decide)
    have hleft' : readConjunction budget (cs ++ (before ++ ['&', '&'] ++ after ++ (ds ++ rest)))
        = readAnds (budget - k) left (before ++ ['&', '&'] ++ after ++ (ds ++ rest)) :=
      hleft.readConjunction_append (by omega) hends
    -- The left side spends its connectives, and this one spends one more.
    have hright' : readTerm (budget - (k + 1)) (ds ++ rest) = .ok (right, rest) :=
      hright.readTerm_append (by omega) ends
    have hbudget : budget - k = budget - (k + 1) + 1 := by omega
    have htext : cs ++ before ++ ['&', '&'] ++ after ++ ds ++ rest
        = cs ++ (before ++ ['&', '&'] ++ after ++ (ds ++ rest)) := by
      simp
    rw [htext, hleft', hbudget, readAnds_succ hdouble, hright']
    rfl

/-- Reading a condition from the front of a text comes down to reading on after it. -/
theorem ConditionText.readCondition_append {n k budget : Nat} {cs rest : List Char}
    {condition : Condition} (within : n ≤ budget) (ends : Ends conjunctionMarks rest) :
    ConditionText n k cs condition →
    readCondition budget (cs ++ rest) = readOrs (budget - k) condition rest
  | .conjunction hconjunction => by
    rw [readCondition_eq, hconjunction.readConjunction_append within (ends.mono (by decide)),
      readAnds_eq_self (afterDoubled?_eq_none ends (by decide))]
    rfl
  | @ConditionText.or n k m j cs before after ds left right hleft hbefore hafter hright => by
    have hk := hleft.connectives_le
    obtain ⟨c, tail, hds, hc⟩ := hright.exists_cons
    have hdouble : afterDoubled? '|' (before ++ ['|', '|'] ++ after ++ (ds ++ rest))
        = some (ds ++ rest) :=
      afterDoubled?_append (by decide) hbefore hafter (by rw [hds]; exact stops_cons.2 hc)
    have hends : Ends conjunctionMarks (before ++ ['|', '|'] ++ after ++ (ds ++ rest)) :=
      ends_doubled (by decide) hbefore (by decide)
    have hleft' : readCondition budget (cs ++ (before ++ ['|', '|'] ++ after ++ (ds ++ rest)))
        = readOrs (budget - k) left (before ++ ['|', '|'] ++ after ++ (ds ++ rest)) :=
      hleft.readCondition_append (by omega) hends
    -- No `&&` follows the right side, so it ends there as a conjunction.
    have hright' : readConjunction (budget - (k + 1)) (ds ++ rest) = .ok (right, rest) := by
      rw [hright.readConjunction_append (by omega) (ends.mono (by decide)),
        readAnds_eq_self (afterDoubled?_eq_none ends (by decide))]
    have hbudget : budget - k = budget - (k + 1) + 1 := by omega
    have htext : cs ++ before ++ ['|', '|'] ++ after ++ ds ++ rest
        = cs ++ (before ++ ['|', '|'] ++ after ++ (ds ++ rest)) := by
      simp
    rw [htext, hleft', hbudget, readOrs_succ hdouble, hright']
    rfl

end

/-- A condition is read whole in front of a closing parenthesis. -/
theorem ConditionText.readCondition_closed {n k budget : Nat} {cs after : List Char}
    {condition : Condition} (h : ConditionText n k cs condition) (within : n ≤ budget)
    (hafter : Blanks after) (rest : List Char) :
    readCondition budget (cs ++ (after ++ ')' :: rest))
      = .ok (condition, after ++ ')' :: rest) := by
  have hends : Ends [')'] (after ++ ')' :: rest) :=
    ends_append_cons hafter (by decide) (by decide)
  rw [h.readCondition_append within (hends.mono (by decide)),
    readOrs_eq_self (afterDoubled?_eq_none hends (by decide))]

/-! ### Only texts of the grammar are read -/

/-- What the readers of conditions take within the budget: a term is a text of the grammar, and
a chain that was one stays one. A chain of `k` connectives had `k + budget` to spend. -/
structure SoundWithin (budget : Nat) : Prop where
  term : ∀ {cs rest condition}, readTerm budget cs = .ok (condition, rest) →
    ∃ pre n, cs = pre ++ rest ∧ TermText n pre condition ∧ n ≤ budget
  ands : ∀ {pre cs rest left condition n k}, ConjunctionText n k pre left → n ≤ k + budget →
    readAnds budget left cs = .ok (condition, rest) →
    ∃ more m j, cs = more ++ rest ∧ ConjunctionText m j (pre ++ more) condition ∧ m ≤ k + budget
  ors : ∀ {pre cs rest left condition n k}, ConditionText n k pre left → n ≤ k + budget →
    readOrs budget left cs = .ok (condition, rest) →
    ∃ more m j, cs = more ++ rest ∧ ConditionText m j (pre ++ more) condition ∧ m ≤ k + budget

/-- A conjunction is a term and the chain behind it, so it is sound where both are. -/
theorem SoundWithin.conjunction {budget : Nat} (h : SoundWithin budget) {cs rest : List Char}
    {condition : Condition} (hread : readConjunction budget cs = .ok (condition, rest)) :
    ∃ pre n k, cs = pre ++ rest ∧ ConjunctionText n k pre condition ∧ n ≤ budget := by
  simp only [readConjunction, bind_eq_ok_iff, Prod.exists] at hread
  obtain ⟨first, after, hfirst, hands⟩ := hread
  obtain ⟨pre, n, rfl, hpre, hn⟩ := h.term hfirst
  obtain ⟨more, m, j, rfl, hmore, hm⟩ := h.ands (.term hpre) (by omega) hands
  exact ⟨pre ++ more, m, j, by simp, hmore, by omega⟩

/-- A condition is a conjunction and the chain behind it. -/
theorem SoundWithin.condition {budget : Nat} (h : SoundWithin budget) {cs rest : List Char}
    {condition : Condition} (hread : readCondition budget cs = .ok (condition, rest)) :
    ∃ pre n k, cs = pre ++ rest ∧ ConditionText n k pre condition ∧ n ≤ budget := by
  rw [readCondition_eq] at hread
  simp only [bind_eq_ok_iff, Prod.exists] at hread
  obtain ⟨first, after, hfirst, hors⟩ := hread
  obtain ⟨pre, n, k, rfl, hpre, hn⟩ := h.conjunction hfirst
  obtain ⟨more, m, j, rfl, hmore, hm⟩ := h.ors (.conjunction hpre) (by omega) hors
  exact ⟨pre ++ more, m, j, by simp, hmore, by omega⟩

/-- A test is read the same way within every budget. -/
theorem exists_termText_of_readTest {budget : Nat} {cs rest : List Char} {condition : Condition}
    (h : readTest cs = .ok (condition, rest)) :
    ∃ pre n, cs = pre ++ rest ∧ TermText n pre condition ∧ n ≤ budget := by
  obtain ⟨pre, rfl, hpre⟩ := exists_testText_of_readTest h
  exact ⟨pre, 0, rfl, .test hpre, Nat.zero_le _⟩

/-- Without a budget only tests are read, and chains end at once. -/
theorem soundWithin_zero : SoundWithin 0 := by
  -- With nothing to spend, a parenthesis or one more connective is an error.
  refine ⟨?_, ?_, ?_⟩
  · intro cs rest condition h
    rw [readTerm.eq_def] at h
    dsimp only at h
    split at h
    · cases h
    · exact exists_termText_of_readTest h
  · intro pre cs rest left condition n k hpre hn h
    rw [readAnds] at h
    split at h
    · cases h
      exact ⟨[], n, k, rfl, by simpa using hpre, hn⟩
    · cases h
  · intro pre cs rest left condition n k hpre hn h
    rw [readOrs] at h
    split at h
    · cases h
      exact ⟨[], n, k, rfl, by simpa using hpre, hn⟩
    · cases h

/-- A group spends one and is a condition within the rest. -/
theorem SoundWithin.term_succ {budget : Nat} (ih : SoundWithin budget) {cs rest : List Char}
    {condition : Condition} (h : readTerm (budget + 1) cs = .ok (condition, rest)) :
    ∃ pre n, cs = pre ++ rest ∧ TermText n pre condition ∧ n ≤ budget + 1 := by
  -- The reader is opened twice: in `h` for the cases, and in `hread` for what a group does.
  have hread := h
  rw [readTerm.eq_def] at h
  dsimp only at h
  split at h
  · next after =>
    rw [readTerm_group] at hread
    simp only [bind_eq_ok_iff, Prod.exists] at hread
    obtain ⟨found, afterCondition, hcondition, afterParen, hparen, hread⟩ := hread
    cases hread
    obtain ⟨before, hbefore, hbeforeBlanks⟩ := exists_blanks_append_skipSpaces after
    obtain ⟨blanks, hblanks, hblanksBlanks⟩ := exists_blanks_append_skipSpaces afterCondition
    obtain ⟨pre, n, k, hpre, hpreText, hn⟩ := ih.condition hcondition
    refine ⟨'(' :: (before ++ pre ++ blanks ++ [')']), n + 1, ?_,
      .group hbeforeBlanks hpreText hblanksBlanks, by omega⟩
    rw [hbefore, hpre, hblanks, expectChar_eq_ok_iff.1 hparen]
    simp
  · exact exists_termText_of_readTest h

/-- Each `&&` spends one, and the term after it is within the rest. -/
theorem SoundWithin.ands_succ {budget : Nat} (ih : SoundWithin budget) {pre cs rest : List Char}
    {left condition : Condition} {n k : Nat} (hpre : ConjunctionText n k pre left)
    (hn : n ≤ k + (budget + 1)) (h : readAnds (budget + 1) left cs = .ok (condition, rest)) :
    ∃ more m j, cs = more ++ rest ∧ ConjunctionText m j (pre ++ more) condition ∧
      m ≤ k + (budget + 1) := by
  cases hdouble : afterDoubled? '&' cs with
  | none =>
    rw [readAnds_eq_self hdouble] at h
    cases h
    exact ⟨[], n, k, rfl, by simpa using hpre, hn⟩
  | some after =>
    obtain ⟨before, blanks, rfl, hbefore, hblanks⟩ := exists_of_afterDoubled? hdouble
    rw [readAnds_succ hdouble] at h
    simp only [bind_eq_ok_iff, Prod.exists] at h
    obtain ⟨right, after', hright, h⟩ := h
    -- What was read so far and this term make a longer chain, with one less to spend.
    obtain ⟨ds, m, rfl, hds, hm⟩ := ih.term hright
    obtain ⟨more, m', j, rfl, hmore, hm'⟩ :=
      ih.ands (.and hpre hbefore hblanks hds) (by omega) h
    refine ⟨before ++ ['&', '&'] ++ blanks ++ ds ++ more, m', j, by simp, ?_, by omega⟩
    simpa using hmore

/-- Each `||` spends one, and the conjunction after it is within the rest. -/
theorem SoundWithin.ors_succ {budget : Nat} (ih : SoundWithin budget) {pre cs rest : List Char}
    {left condition : Condition} {n k : Nat} (hpre : ConditionText n k pre left)
    (hn : n ≤ k + (budget + 1)) (h : readOrs (budget + 1) left cs = .ok (condition, rest)) :
    ∃ more m j, cs = more ++ rest ∧ ConditionText m j (pre ++ more) condition ∧
      m ≤ k + (budget + 1) := by
  cases hdouble : afterDoubled? '|' cs with
  | none =>
    rw [readOrs_eq_self hdouble] at h
    cases h
    exact ⟨[], n, k, rfl, by simpa using hpre, hn⟩
  | some after =>
    obtain ⟨before, blanks, rfl, hbefore, hblanks⟩ := exists_of_afterDoubled? hdouble
    rw [readOrs_succ hdouble] at h
    simp only [bind_eq_ok_iff, Prod.exists] at h
    obtain ⟨right, after', hright, h⟩ := h
    -- The right side was read with one less to spend, and so is what follows it.
    obtain ⟨ds, m, i, rfl, hds, hm⟩ := ih.conjunction hright
    obtain ⟨more, m', j, rfl, hmore, hm'⟩ :=
      ih.ors (.or hpre hbefore hblanks hds) (by omega) h
    refine ⟨before ++ ['|', '|'] ++ blanks ++ ds ++ more, m', j, by simp, ?_, by omega⟩
    simpa using hmore

/-- Induction on the budget: each reader spends one on a parenthesis or on a connective. -/
theorem soundWithin (budget : Nat) : SoundWithin budget := by
  induction budget with
  | zero => exact soundWithin_zero
  | succ budget ih => exact ⟨ih.term_succ, ih.ands_succ, ih.ors_succ⟩

end JsonDoc.Path.Grammar

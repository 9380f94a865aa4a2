import JsonDoc.Proofs.Path.Printing

/-!
# `JsonDoc.Proofs.Path.Normal`: reading the normal text of a path

The normal text of a compiled path is meant to compile to the same segments. It does exactly when
every condition of the path can be read back from its own text: no literal is negative infinity,
whose text is no literal, and the parentheses that the text adds keep the nesting within the
limit. `Segment.Rereadable` is this condition.

* `PathText.exists_pieces`: the segments of a compiled path come in pieces that can be written.
* `Condition.exists_readTerm_text_eq_error`: the text of a condition that cannot be read back is
  an error, however much there is to spend up to its nesting.
* `compile_normalize_iff`: the normal text of a compiled path compiles to the same segments, and
  has itself as normal text again, exactly when all segments can be read back.
-/

set_option autoImplicit false

namespace JsonDoc.Path.Grammar

open Number Text

/-! ### What the segments of a text are like -/

/-- The names of a field are read after points, so they need no quotes. -/
theorem FieldText.forall_isName {cs : List Char} {field : Field} (h : FieldText cs field) :
    ∀ name ∈ field, isName name.toList = true := by
  induction h with
  | nil => exact fun name mem => absurd mem List.not_mem_nil
  | cons hname _ ih =>
    intro name mem
    rcases List.mem_cons.1 mem with rfl | mem
    · obtain ⟨hplain, rfl⟩ := hname
      rwa [String.toList_ofList]
    · exact ih name mem

/-- All names of a test that was read are such names. -/
theorem TestText.plainNames {cs : List Char} {condition : Condition}
    (h : TestText cs condition) : condition.PlainNames := by
  cases h with
  | present hfield =>
    intro field mem
    rw [List.mem_singleton.1 mem]
    exact hfield.forall_isName
  | compare hfield =>
    intro field mem
    rw [List.mem_singleton.1 mem]
    exact hfield.forall_isName

mutual

/-- All names of a term are. -/
theorem TermText.plainNames {n : Nat} {cs : List Char} {condition : Condition} :
    TermText n cs condition → condition.PlainNames
  | .test htest => htest.plainNames
  | .group _ hcondition _ => hcondition.plainNames

/-- All names of a conjunction are. -/
theorem ConjunctionText.plainNames {n k : Nat} {cs : List Char} {condition : Condition} :
    ConjunctionText n k cs condition → condition.PlainNames
  | .term hterm => hterm.plainNames
  | .and hleft _ _ hright => Condition.plainNames_and.2 ⟨hleft.plainNames, hright.plainNames⟩

/-- All names of a condition are. -/
theorem ConditionText.plainNames {n k : Nat} {cs : List Char} {condition : Condition} :
    ConditionText n k cs condition → condition.PlainNames
  | .conjunction hconjunction => hconjunction.plainNames
  | .or hleft _ _ hright => Condition.plainNames_or.2 ⟨hleft.plainNames, hright.plainNames⟩

end

/-- Integers of a path have 64 bits. -/
theorem IntegerText.range {cs : List Char} {i : Int} (h : IntegerText cs i) :
    -(2 ^ 63 : Int) ≤ i ∧ i < 2 ^ 63 := by
  cases h with
  | unsigned _ high => omega
  | plus _ high => omega
  | minus _ low => omega

/-- A selector that was read can be written again. -/
theorem SelectorText.expressible {cs : List Char} {segment : Segment}
    (h : SelectorText cs segment) : segment ≠ .descent ∧ segment.Expressible := by
  cases h with
  | wildcard => exact ⟨Segment.noConfusion, trivial⟩
  | index hi => exact ⟨Segment.noConfusion, hi.range⟩
  | property => exact ⟨Segment.noConfusion, trivial⟩
  | filter _ hcondition => exact ⟨Segment.noConfusion, hcondition.plainNames⟩

/-- What stands after a point can be written again. -/
theorem MemberText.expressible {cs : List Char} {segment : Segment}
    (h : MemberText cs segment) : segment ≠ .descent ∧ segment.Expressible := by
  cases h with
  | wildcard => exact ⟨Segment.noConfusion, trivial⟩
  | property => exact ⟨Segment.noConfusion, trivial⟩

/-- What is read as one segment is a segment, or a descent with the segment after it. -/
theorem SegmentText.piece {cs : List Char} {piece : List Segment} (h : SegmentText cs piece) :
    Piece piece := by
  cases h with
  | member hmember => exact .plain hmember.expressible.1 hmember.expressible.2
  | bracket hbracket =>
    obtain ⟨_, hselector, _⟩ := hbracket
    exact .plain hselector.expressible.1 hselector.expressible.2
  | descendMember hmember => exact .descent hmember.expressible.1 hmember.expressible.2
  | descendBracket hbracket =>
    obtain ⟨_, hselector, _⟩ := hbracket
    exact .descent hselector.expressible.1 hselector.expressible.2

/-- The segments of a path come in pieces that can be written. -/
theorem PathText.exists_pieces {cs : List Char} {segments : List Segment}
    (h : PathText cs segments) :
    ∃ pieces : List (List Segment), pieces.flatten = segments ∧ ∀ piece ∈ pieces, Piece piece := by
  cases h with
  | empty => exact ⟨[], rfl, fun piece mem => absurd mem List.not_mem_nil⟩
  | @rooted cs pieces hpieces =>
    refine ⟨pieces, rfl, ?_⟩
    induction hpieces with
    | nil => exact fun piece mem => absurd mem List.not_mem_nil
    | cons hpiece _ ih =>
      intro piece mem
      rcases List.mem_cons.1 mem with rfl | mem
      · exact hpiece.piece
      · exact ih piece mem

/-! ### Conditions that cannot be read back -/

/-- Negative infinity is written with a sign that its name does not take. -/
theorem readLiteral_negativeInfinity (rest : List Char) :
    readLiteral ((Literal.number (.infinite true)).text ++ rest)
      = .error ⟨.literal, '-' :: 'i' :: 'n' :: 'f' :: rest⟩ := by
  rfl

/-- A test of negative infinity is an error. -/
theorem exists_readTest_text_eq_error {field : Field}
    (names : ∀ name ∈ field, isName name.toList = true) (op : Comparison) (rest : List Char) :
    ∃ stop, readTest ((Condition.compare field op (.number (.infinite true))).text ++ rest)
      = .error stop := by
  have htext : (Condition.compare field op (.number (.infinite true))).text ++ rest
      = '@' :: ((field.flatMap fun name => '.' :: name.toList) ++ ([' '] ++ (op.text ++ ([' '] ++
          ((Literal.number (.infinite true)).text ++ rest))))) := by
    simp [Condition.text, Field.text]
  have hmore : ∃ c tail, (Literal.number (.infinite true)).text ++ rest = c :: tail ∧
      isSpace c = false ∧ c ≠ '=' :=
    ⟨'-', 'i' :: 'n' :: 'f' :: rest, rfl, by decide, by decide⟩
  rw [htext, readTest_compare (Field.fieldText_text names) blanks_space blanks_space hmore,
    readLiteral_negativeInfinity]
  exact ⟨_, rfl⟩

/-- The text of a condition starts with the mark of the candidate or with a parenthesis. -/
theorem Condition.exists_text_eq_cons (condition : Condition) :
    ∃ c tail, condition.text = c :: tail ∧ isSpace c = false := by
  cases condition with
  | compare field op literal => exact ⟨'@', _, rfl, by decide⟩
  | present field => exact ⟨'@', _, rfl, by decide⟩
  | and left right => exact ⟨'(', _, rfl, by decide⟩
  | or left right => exact ⟨'(', _, rfl, by decide⟩

/-- The text of a condition does not start with a blank. -/
theorem skipSpaces_text_append (condition : Condition) (rest : List Char) :
    skipSpaces (condition.text ++ rest) = condition.text ++ rest := by
  exact skipSpaces_append_text blanks_nil (Condition.exists_text_eq_cons condition) rest

/-- A first term that is an error makes the conjunction an error. -/
theorem exists_readConjunction_eq_error {budget : Nat} {cs : List Char}
    (h : ∃ stop, readTerm budget cs = .error stop) :
    ∃ stop, readConjunction budget cs = .error stop :=
  exists_bind_eq_error h

/-- A first term that is an error makes the condition an error. -/
theorem exists_readCondition_eq_error {budget : Nat} {cs : List Char}
    (h : ∃ stop, readConjunction budget cs = .error stop) :
    ∃ stop, readCondition budget cs = .error stop := by
  rw [readCondition_eq]
  exact exists_bind_eq_error h

/-- A term that is an error after `&&` makes the conjunction an error. -/
theorem exists_readAnds_eq_error {budget : Nat} {left : Condition} {cs rest : List Char}
    (hdouble : afterDoubled? '&' cs = some rest)
    (h : ∀ b, budget = b + 1 → ∃ stop, readTerm b rest = .error stop) :
    ∃ stop, readAnds budget left cs = .error stop := by
  cases budget with
  | zero =>
    rw [readAnds, hdouble]
    exact ⟨_, rfl⟩
  | succ budget =>
    rw [readAnds_succ hdouble]
    exact exists_bind_eq_error (h budget rfl)

/-- A term that is an error after `||` makes the condition an error. -/
theorem exists_readOrs_eq_error {budget : Nat} {left : Condition} {cs rest : List Char}
    (hdouble : afterDoubled? '|' cs = some rest)
    (h : ∀ b, budget = b + 1 → ∃ stop, readTerm b rest = .error stop) :
    ∃ stop, readOrs budget left cs = .error stop := by
  cases budget with
  | zero =>
    rw [readOrs, hdouble]
    exact ⟨_, rfl⟩
  | succ budget =>
    rw [readOrs_succ hdouble]
    exact exists_bind_eq_error (exists_readConjunction_eq_error (h budget rfl))

/-- The text after the left side of two joined conditions, up to the text after both. -/
def joinedText (mark : Char) (right : Condition) (rest : List Char) : List Char :=
  [' '] ++ [mark, mark] ++ [' '] ++ (right.text ++ ([')'] ++ rest))

/-- The connective between two joined conditions ends the left one. -/
theorem ends_joinedText {mark : Char} {marks : List Char} (hmark : isSpace mark = false)
    (mem : mark ∈ marks) (right : Condition) (rest : List Char) :
    Ends marks (joinedText mark right rest) :=
  ends_doubled hmark blanks_space mem

/-- Behind the connective stands the right condition. -/
theorem afterDoubled?_joinedText {mark : Char} (hmark : isSpace mark = false) (right : Condition)
    (rest : List Char) :
    afterDoubled? mark (joinedText mark right rest) = some (right.text ++ ([')'] ++ rest)) := by
  refine afterDoubled?_append hmark blanks_space blanks_space ?_
  obtain ⟨c, tail, hright, hc⟩ := Condition.exists_text_eq_cons right
  rw [hright]
  exact stops_cons.2 hc

/-- The left side of two joined conditions is read whole, or is an error. -/
theorem readConjunction_left_text {left : Condition} {budget : Nat} {rest : List Char}
    (names : left.PlainNames) (ends : Ends termMarks rest)
    (h : ¬(left.PlainLiterals ∧ left.printedNesting ≤ budget) →
      ∃ stop, readTerm budget (left.text ++ rest) = .error stop) :
    (∃ stop, readConjunction budget (left.text ++ rest) = .error stop) ∨
      (left.PlainLiterals ∧ left.printedNesting ≤ budget) ∧
        readConjunction budget (left.text ++ rest) = readAnds budget left rest := by
  by_cases hleft : left.PlainLiterals ∧ left.printedNesting ≤ budget
  · refine .inr ⟨hleft, ?_⟩
    have hterm := Condition.termText_text names hleft.1
    rw [readConjunction, hterm.readTerm_append hleft.2 ends]
    rfl
  · exact .inl (exists_readConjunction_eq_error (h hleft))

/-- The text of a condition that cannot be read back is an error. -/
theorem Condition.exists_readTerm_text_eq_error {condition : Condition}
    (names : condition.PlainNames) {budget : Nat} {rest : List Char} (ends : Ends termMarks rest)
    (h : ¬(condition.PlainLiterals ∧ condition.printedNesting ≤ budget)) :
    ∃ stop, readTerm budget (condition.text ++ rest) = .error stop := by
  -- The induction is on the condition. Its parentheses spend one, so the left side has all of
  -- the rest to spend, and the right side one less than that.
  induction condition generalizing budget rest with
  | present field =>
    refine absurd ⟨?_, Nat.zero_le _⟩ h
    exact fun literal mem => absurd mem List.not_mem_nil
  | compare field op literal =>
    -- A test nests nothing, so that only its literal can be at fault.
    have hliteral : literal = .number (.infinite true) := by
      by_contra hne
      refine h ⟨?_, Nat.zero_le _⟩
      intro other mem
      rwa [List.mem_singleton.1 mem]
    subst hliteral
    have hfield := names field List.mem_cons_self
    obtain ⟨stop, hstop⟩ : ∃ stop, readTest _ = .error stop :=
      exists_readTest_text_eq_error hfield op rest
    exact ⟨stop, (readTerm_candidate budget _).trans hstop⟩
  | and left right ihl ihr =>
    obtain ⟨namesLeft, namesRight⟩ := Condition.plainNames_and.1 names
    have htext : (Condition.and left right).text ++ rest
        = '(' :: (left.text ++ joinedText '&' right rest) := by
      simp [Condition.text, joinedText]
    rw [htext]
    cases budget with
    | zero => exact ⟨_, rfl⟩
    | succ budget =>
      rw [readTerm_group, skipSpaces_text_append]
      refine exists_bind_eq_error ?_
      refine exists_readCondition_eq_error ?_
      have hends : Ends termMarks (joinedText '&' right rest) :=
        ends_joinedText (by decide) (by decide) right rest
      rcases readConjunction_left_text namesLeft hends (ihl namesLeft hends) with
        hleft | ⟨hleft, hread⟩
      · exact hleft
      · rw [hread]
        -- The connective spends one, and the right side is an error within what is left.
        refine exists_readAnds_eq_error (afterDoubled?_joinedText (by decide) right rest) ?_
        rintro b rfl
        refine ihr namesRight (ends_append_cons blanks_nil (by decide) (by decide)) ?_
        rintro ⟨literalsRight, hright⟩
        refine h ⟨Condition.plainLiterals_and.2 ⟨hleft.1, literalsRight⟩, ?_⟩
        rw [Condition.printedNesting]
        omega
  | or left right ihl ihr =>
    obtain ⟨namesLeft, namesRight⟩ := Condition.plainNames_or.1 names
    have htext : (Condition.or left right).text ++ rest
        = '(' :: (left.text ++ joinedText '|' right rest) := by
      simp [Condition.text, joinedText]
    rw [htext]
    cases budget with
    | zero => exact ⟨_, rfl⟩
    | succ budget =>
      rw [readTerm_group, skipSpaces_text_append]
      refine exists_bind_eq_error ?_
      have hends : Ends conjunctionMarks (joinedText '|' right rest) :=
        ends_joinedText (by decide) (by decide) right rest
      have hends' : Ends termMarks (joinedText '|' right rest) := hends.mono (by decide)
      rcases readConjunction_left_text namesLeft hends' (ihl namesLeft hends') with
        hleft | ⟨hleft, hread⟩
      · exact exists_readCondition_eq_error hleft
      · -- No further term of the left side follows, and the right side is an error.
        rw [readCondition_eq, hread,
          readAnds_eq_self (afterDoubled?_eq_none hends (by decide))]
        refine exists_readOrs_eq_error (afterDoubled?_joinedText (by decide) right rest) ?_
        rintro b rfl
        refine ihr namesRight (ends_append_cons blanks_nil (by decide) (by decide)) ?_
        rintro ⟨literalsRight, hright⟩
        refine h ⟨Condition.plainLiterals_or.2 ⟨hleft.1, literalsRight⟩, ?_⟩
        rw [Condition.printedNesting]
        omega

/-! ### Paths that cannot be read back -/

/-- A piece starts with a point or a bracket. -/
theorem Piece.exists_listText_eq_cons {piece : List Segment} (h : Piece piece) :
    ∃ c tail, Segment.listText false piece = c :: tail ∧ isNameChar c = false := by
  cases h with
  | descent => exact ⟨'.', _, rfl, by decide⟩
  | @plain segment hdescent =>
    cases segment with
    | descent => exact absurd rfl hdescent
    | index i => exact ⟨'[', _, rfl, by decide⟩
    | wildcard => exact ⟨'[', _, rfl, by decide⟩
    | filter condition => exact ⟨'[', _, rfl, by decide⟩
    | property name =>
      by_cases hname : isName name.toList = true
      · refine ⟨'.', name.toList, ?_, by decide⟩
        simp [Segment.listText, Segment.textAfter, Segment.text, hname]
      · refine ⟨'[', quotedText name ++ [']'], ?_, by decide⟩
        simp [Segment.listText, Segment.textAfter, Segment.text, hname]

/-- A bracket with a condition that cannot be read back is an error. -/
theorem exists_readBracket_filter_eq_error {condition : Condition}
    (names : condition.PlainNames)
    (h : ¬(condition.PlainLiterals ∧ condition.printedNesting ≤ maxConditionHeight))
    (rest : List Char) :
    ∃ stop, readBracket ('?' :: '(' :: (condition.text ++ ')' :: rest)) = .error stop := by
  have hends : Ends termMarks ([] ++ ')' :: rest) :=
    ends_append_cons blanks_nil (by decide) (by decide)
  -- The condition is the first term of the filter, and its error is passed on by each reader.
  have hcondition : ∃ stop, readCondition maxConditionHeight (condition.text ++ ')' :: rest)
      = .error stop :=
    exists_readCondition_eq_error (exists_readConjunction_eq_error
      (Condition.exists_readTerm_text_eq_error names hends h))
  have hfilter : ∃ stop, readFilter ('(' :: (condition.text ++ ')' :: rest)) = .error stop := by
    rw [readFilter, expectChar_cons_self, ok_bind, skipSpaces_text_append]
    exact exists_bind_eq_error hcondition
  have hskip : skipSpaces ('?' :: '(' :: (condition.text ++ ')' :: rest))
      = '?' :: '(' :: (condition.text ++ ')' :: rest) :=
    skipSpaces_of_stops (stops_cons.2 (by decide))
  rw [readBracket, hskip, readSelector]
  exact exists_bind_eq_error hfilter

/-- A piece with a segment that cannot be read back is an error. -/
theorem Piece.exists_readSegment_listText_eq_error {piece : List Segment} (h : Piece piece)
    (bad : ¬∀ segment ∈ piece, segment.Rereadable) (rest : List Char) :
    ∃ stop, readSegment (Segment.listText false piece ++ rest) = .error stop := by
  -- Every segment but a condition can be read back.
  cases h with
  | @plain segment hdescent hexpressible =>
    cases segment with
    | filter condition =>
      have hbad : ¬(Segment.filter condition).Rereadable := by simpa using bad
      have hbracket := exists_readBracket_filter_eq_error hexpressible hbad (']' :: rest)
      have htext : Segment.listText false [.filter condition] ++ rest
          = '[' :: '?' :: '(' :: (condition.text ++ ')' :: ']' :: rest) := by
        simp [Segment.listText, Segment.textAfter, Segment.text]
      rw [htext, readSegment]
      exact exists_bind_eq_error hbracket
    | _ => simp [Segment.Rereadable] at bad
  | @descent segment hdescent hexpressible =>
    cases segment with
    | filter condition =>
      have hbad : ¬(Segment.filter condition).Rereadable := by
        simpa [Segment.Rereadable] using bad
      have hbracket := exists_readBracket_filter_eq_error hexpressible hbad (']' :: rest)
      have htext : Segment.listText false [.descent, .filter condition] ++ rest
          = '.' :: '.' :: '[' :: '?' :: '(' :: (condition.text ++ ')' :: ']' :: rest) := by
        simp [Segment.listText, Segment.textAfter, Segment.text]
      rw [htext, readSegment]
      exact exists_bind_eq_error hbracket
    | _ => simp [Segment.Rereadable] at bad

/-- The pieces in front of a segment that cannot be read back are read, and its own is an
error. -/
theorem exists_readMany_listText_eq_error {pieces : List (List Segment)}
    (h : ∀ piece ∈ pieces, Piece piece)
    (bad : ¬∀ segment ∈ pieces.flatten, segment.Rereadable) {count : Nat}
    (enough : (Segment.listText false pieces.flatten).length ≤ count) :
    ∃ stop, readMany readSegment count (Segment.listText false pieces.flatten) = .error stop := by
  induction pieces generalizing count with
  | nil => exact absurd (fun segment mem => absurd mem List.not_mem_nil) bad
  | cons piece pieces ih =>
    have hpiece := h piece List.mem_cons_self
    have hpieces : ∀ other ∈ pieces, Piece other :=
      fun other mem => h other (List.mem_cons_of_mem _ mem)
    rw [List.flatten_cons, hpiece.listText_append] at enough ⊢
    obtain ⟨c, tail, htext, -⟩ := hpiece.exists_listText_eq_cons
    have hpos : 0 < (Segment.listText false piece).length := by rw [htext]; exact Nat.succ_pos _
    rw [List.length_append] at enough
    obtain ⟨count, rfl⟩ : ∃ n, count = n + 1 := ⟨count - 1, by omega⟩
    by_cases hhere : ∀ segment ∈ piece, segment.Rereadable
    · -- This piece is read, and the error is further on.
      have bad' : ¬∀ segment ∈ pieces.flatten, segment.Rereadable := by
        intro hthere
        refine bad ?_
        rw [List.flatten_cons]
        exact List.forall_mem_append.2 ⟨hhere, hthere⟩
      have hrest := ih hpieces bad' (by omega : _ ≤ count)
      have hstops : Stops isNameChar (Segment.listText false pieces.flatten) := by
        cases pieces with
        | nil => exact stops_nil _
        | cons next pieces =>
          have hnext := hpieces next List.mem_cons_self
          obtain ⟨d, tail', htext', hd⟩ := hnext.exists_listText_eq_cons
          rw [List.flatten_cons, hnext.listText_append, htext']
          exact stops_cons.2 hd
      rw [readMany, readSegment_append (hpiece.segmentText_listText hhere) hstops, ok_bind]
      exact exists_bind_eq_error hrest
    · have herror := hpiece.exists_readSegment_listText_eq_error hhere
        (Segment.listText false pieces.flatten)
      rw [readMany]
      exact exists_bind_eq_error herror

/-- A path with a segment that cannot be read back has a normal text that is no path. -/
theorem exists_compile_textOf_eq_error {pieces : List (List Segment)}
    (h : ∀ piece ∈ pieces, Piece piece)
    (bad : ¬∀ segment ∈ pieces.flatten, segment.Rereadable) :
    ∃ fault, compile (textOf pieces.flatten) = .error fault := by
  have hmany := exists_readMany_listText_eq_error h bad (Nat.le_refl _)
  obtain ⟨stop, hread⟩ : ∃ stop, readPath (textOf pieces.flatten).toList = .error stop := by
    rw [textOf, String.toList_ofList, readPath]
    exact exists_bind_eq_error hmany
  rw [compile, hread]
  exact ⟨_, rfl⟩

/-- The normal text of a compiled path compiles to the same segments, and has itself as normal
text again, exactly when no literal of the path is negative infinity and no condition of it is
nested too deeply with the parentheses of its normal text counted. -/
theorem compile_normalize_iff {text : String} {path : Path} (h : compile text = .ok path) :
    (∃ again, compile path.normalize = .ok again ∧ again.segments = path.segments ∧
        again.normalize = path.normalize) ↔
      ∀ segment ∈ path.segments, segment.Rereadable := by
  obtain ⟨pieces, hpieces, hshape⟩ := (compile_eq_ok_iff.1 h).2.exists_pieces
  constructor
  · -- If a segment cannot be read back, the normal text is no path at all.
    rintro ⟨again, hagain, -, -⟩
    by_contra bad
    rw [← hpieces] at bad
    obtain ⟨fault, hfault⟩ := exists_compile_textOf_eq_error hshape bad
    rw [normalize, ← hpieces, hfault] at hagain
    cases hagain
  · -- Otherwise the grammar derives the segments from it, and they decide the normal text.
    intro hrereadable
    rw [← hpieces] at hrereadable
    have htext := pathText_textOf hshape hrereadable
    rw [hpieces] at htext
    refine ⟨⟨path.normalize, path.segments⟩, ?_, rfl, rfl⟩
    exact compile_eq_ok_iff.2 ⟨rfl, htext⟩

/-- A path with a descent and a condition, and its normal text `$..a[?((@.b == 'x' || @))]`. -/
theorem compile_normalize_joined :
    ∃ path again, compile "$..a[?(@.b=='x'||@)]" = .ok path ∧
      compile path.normalize = .ok again ∧ again.segments = path.segments ∧
      again.normalize = path.normalize := by
  have h : compile "$..a[?(@.b=='x'||@)]" = .ok ⟨"$..a[?(@.b=='x'||@)]", [.descent, .property "a",
      .filter (.or (.compare ["b"] .eq (.string "x")) (.present []))]⟩ := by
    decide +kernel
  obtain ⟨again, hagain⟩ := (compile_normalize_iff h).2 (by
    simp [Segment.Rereadable, Condition.PlainLiterals, Condition.literals,
      Condition.printedNesting, maxConditionHeight])
  exact ⟨_, again, h, hagain⟩

/-- A numeral far below the least number is read as negative infinity, which is written by a name
that is no literal: the normal text `$[?(@ == -inf)]` is no path. -/
theorem exists_compile_normalize_eq_error :
    ∃ path fault, compile "$[?(@ == -1e999)]" = .ok path ∧
      path.segments = [.filter (.compare [] .eq (.number (.infinite true)))] ∧
      compile path.normalize = .error fault := by
  refine ⟨⟨"$[?(@ == -1e999)]", [.filter (.compare [] .eq (.number (.infinite true)))]⟩,
    ⟨9, "-inf", .literal⟩, ?_, rfl, ?_⟩
  · decide +kernel
  · decide +kernel

end JsonDoc.Path.Grammar

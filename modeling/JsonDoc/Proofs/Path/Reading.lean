import JsonDoc.Proofs.Path.Condition

/-!
# `JsonDoc.Proofs.Path.Reading`: the reader of paths and its grammar

The reader accepts exactly the texts of the grammar, and reads from each what the grammar gives
it:

* `readPath_eq_ok_iff`: the segments read from a text are the ones that the grammar derives.
* `PathText.unique`: no text has two readings.
* `compile_eq_ok_iff`: the same of the compiled path, which keeps the text it was read from.
* `compile_iff_pathText`: compiling and deriving are the same thing, for every text and every
  list of segments.

The steps on the way are a pair of statements for each reader, as for the tokens.
-/

set_option autoImplicit false

namespace JsonDoc.Path.Grammar

open Number Text

/-! ### Filters -/

/-- A filter is read if its condition is within the limit, whatever follows its last parenthesis. -/
theorem readFilter_append {n k : Nat} {before cs after : List Char} {condition : Condition}
    (hbefore : Blanks before) (hcondition : ConditionText n k cs condition)
    (within : n ≤ maxConditionHeight) (hafter : Blanks after) (rest : List Char) :
    readFilter ('(' :: (before ++ cs ++ after ++ [')']) ++ rest)
      = .ok (.filter condition, rest) := by
  have htext : '(' :: (before ++ cs ++ after ++ [')']) ++ rest
      = '(' :: (before ++ (cs ++ (after ++ ')' :: rest))) := by
    simp
  have hread : readCondition maxConditionHeight (cs ++ (after ++ ')' :: rest))
      = .ok (condition, after ++ ')' :: rest) :=
    hcondition.readCondition_closed within hafter rest
  rw [htext, readFilter, expectChar_cons_self, ok_bind,
    skipSpaces_append_text hbefore hcondition.exists_cons, hread, ok_bind]
  show (expectChar ')' .closingFilter (skipSpaces (after ++ ')' :: rest)) >>= _) = _
  rw [skipSpaces_append_cons hafter (by decide)]
  rfl

/-- What is read as a filter is a condition in parentheses, and within the limit. -/
theorem exists_selectorText_of_readFilter {cs rest : List Char} {segment : Segment}
    (h : readFilter cs = .ok (segment, rest)) :
    ∃ pre, '?' :: cs = pre ++ rest ∧ SelectorText pre segment := by
  simp only [readFilter, bind_eq_ok_iff, Prod.exists] at h
  obtain ⟨afterOpen, hopen, condition, afterCondition, hcondition, afterParen, hparen, h⟩ := h
  cases h
  obtain ⟨before, hbefore, hbeforeBlanks⟩ := exists_blanks_append_skipSpaces afterOpen
  obtain ⟨blanks, hblanks, hblanksBlanks⟩ := exists_blanks_append_skipSpaces afterCondition
  obtain ⟨pre, n, k, hpre, hpreText, hn⟩ := (soundWithin maxConditionHeight).condition hcondition
  refine ⟨'?' :: '(' :: (before ++ pre ++ blanks ++ [')']), ?_,
    .filter hbeforeBlanks hpreText hn hblanksBlanks⟩
  rw [expectChar_eq_ok_iff.1 hopen, hbefore, hpre, hblanks, expectChar_eq_ok_iff.1 hparen]
  simp

/-! ### Brackets -/

/-- An integer starts as a numeral does, which tells it from all other selectors. -/
theorem IntegerText.exists_cons {cs : List Char} {i : Int} (h : IntegerText cs i) :
    ∃ c tail, cs = c :: tail ∧ startsNumeral c = true := by
  cases h with
  | plus => exact ⟨'+', _, rfl, by decide⟩
  | minus => exact ⟨'-', _, rfl, by decide⟩
  | unsigned hds =>
    obtain ⟨hne, hall⟩ := hds
    obtain ⟨c, ds, rfl⟩ := List.exists_cons_of_ne_nil hne
    exact ⟨c, ds, rfl, by simp [startsNumeral, hall c List.mem_cons_self]⟩

/-- No blank stands at the front of what is in brackets. -/
theorem SelectorText.exists_cons {cs : List Char} {segment : Segment}
    (h : SelectorText cs segment) : ∃ c tail, cs = c :: tail ∧ isSpace c = false := by
  cases h with
  | wildcard => exact ⟨'*', _, rfl, by decide⟩
  | filter => exact ⟨'?', _, rfl, by decide⟩
  | property hname =>
    obtain ⟨rfl | rfl, _⟩ := hname
    · exact ⟨'"', _, rfl, by decide⟩
    · exact ⟨'\'', _, rfl, by decide⟩
  | index hi =>
    obtain ⟨c, tail, rfl, hc⟩ := hi.exists_cons
    refine ⟨c, tail, rfl, ?_⟩
    by_contra hspace
    have hmem : c ∈ spaces := mem_spaces (by simpa using hspace)
    simp only [spaces, List.mem_cons, List.not_mem_nil, or_false] at hmem
    obtain rfl | rfl | rfl | rfl := hmem <;> exact absurd hc (by decide)

/-- A selector is read if, after blanks, the bracket closes behind it. -/
theorem readSelector_append {cs rest : List Char} {segment : Segment}
    (h : SelectorText cs segment) (ends : Ends [']'] rest) :
    readSelector (cs ++ rest) = .ok (segment, rest) := by
  cases h with
  | wildcard => rfl
  | filter hbefore hcondition within hafter =>
    exact readFilter_append hbefore hcondition within hafter rest
  | property hname =>
    obtain ⟨quote, tail, rfl | rfl, rfl, hread⟩ := hname.exists_readQuoted rest
    · rw [List.cons_append, readSelector, hread]
      rfl
    · rw [List.cons_append, readSelector, hread]
      rfl
  | index hi =>
    have hread := readIndex?_append hi (ends.stops (by decide))
    obtain ⟨c, tail, rfl, hc⟩ := hi.exists_cons
    rw [readSelector.eq_def]
    -- An integer starts with none of the marks of the other selectors.
    split
    · next heq => exact absurd (List.cons.inj heq).1 (ne_of_class hc (by decide))
    · next heq => exact absurd (List.cons.inj heq).1 (ne_of_class hc (by decide))
    · next heq => exact absurd (List.cons.inj heq).1 (ne_of_class hc (by decide))
    · next heq => exact absurd (List.cons.inj heq).1 (ne_of_class hc (by decide))
    · rw [hread]

/-- What is read as a selector is the text of one. -/
theorem exists_selectorText_of_readSelector {cs rest : List Char} {segment : Segment}
    (h : readSelector cs = .ok (segment, rest)) :
    ∃ pre, cs = pre ++ rest ∧ SelectorText pre segment := by
  rw [readSelector.eq_def] at h
  -- One case for each first character, with an index where none of them stands.
  split at h
  · cases h
    exact ⟨['*'], rfl, .wildcard⟩
  · exact exists_selectorText_of_readFilter h
  · exact exists_text_of_quoted (fun _ _ => .property) (.inl rfl) h
  · exact exists_text_of_quoted (fun _ _ => .property) (.inr rfl) h
  · split at h
    · next hread =>
      cases h
      obtain ⟨pre, rfl, hpre⟩ := exists_integerText_of_readIndex? hread
      exact ⟨pre, rfl, .index hpre⟩
    · cases h

/-- A bracket is read whole, by what follows its first character. -/
theorem BracketText.exists_readBracket {cs : List Char} {segment : Segment}
    (h : BracketText cs segment) (rest : List Char) :
    ∃ tail, cs = '[' :: tail ∧ readBracket (tail ++ rest) = .ok (segment, rest) := by
  obtain @⟨before, cs, after, _, hbefore, hselector, hafter⟩ := h
  refine ⟨_, rfl, ?_⟩
  have htext : before ++ cs ++ after ++ [']'] ++ rest
      = before ++ (cs ++ (after ++ ']' :: rest)) := by
    simp
  have hread : readSelector (cs ++ (after ++ ']' :: rest))
      = .ok (segment, after ++ ']' :: rest) :=
    readSelector_append hselector (ends_append_cons hafter (by decide) (by decide))
  rw [htext, readBracket, skipSpaces_append_text hbefore hselector.exists_cons, hread, ok_bind]
  show (expectChar ']' .closingBracket (skipSpaces (after ++ ']' :: rest)) >>= _) = _
  rw [skipSpaces_append_cons hafter (by decide)]
  rfl

/-- What is read from an opening bracket on is a selector in brackets. -/
theorem exists_bracketText_of_readBracket {cs rest : List Char} {segment : Segment}
    (h : readBracket cs = .ok (segment, rest)) :
    ∃ pre, '[' :: cs = pre ++ rest ∧ BracketText pre segment := by
  simp only [readBracket, bind_eq_ok_iff, Prod.exists] at h
  obtain ⟨found, after, hselector, afterBracket, hbracket, h⟩ := h
  cases h
  obtain ⟨before, hbefore, hbeforeBlanks⟩ := exists_blanks_append_skipSpaces cs
  obtain ⟨blanks, hblanks, hblanksBlanks⟩ := exists_blanks_append_skipSpaces after
  obtain ⟨pre, hpre, hpreText⟩ := exists_selectorText_of_readSelector hselector
  refine ⟨'[' :: (before ++ pre ++ blanks ++ [']']), ?_,
    .intro hbeforeBlanks hpreText hblanksBlanks⟩
  rw [hbefore, hpre, hblanks, expectChar_eq_ok_iff.1 hbracket]
  simp

/-! ### Members and segments -/

/-- A member starts with neither a point nor a bracket. -/
theorem MemberText.exists_cons {cs : List Char} {segment : Segment} (h : MemberText cs segment) :
    ∃ c tail, cs = c :: tail ∧ c ≠ '.' ∧ c ≠ '[' := by
  cases h with
  | wildcard => exact ⟨'*', _, rfl, by decide, by decide⟩
  | property hname =>
    obtain ⟨c, tail, rfl⟩ := List.exists_cons_of_ne_nil hname.ne_nil
    have hc : isNameChar c = true := hname.forall_mem c List.mem_cons_self
    refine ⟨c, tail, rfl, ?_, ?_⟩
    · rintro rfl
      exact absurd hc (by decide)
    · rintro rfl
      exact absurd hc (by decide)

/-- A name or `*` is read after a point if the name does not go on. -/
theorem readMember_append {expected : Expectation} {cs rest : List Char} {segment : Segment}
    (h : MemberText cs segment) (stops : Stops isNameChar rest) :
    readMember expected (cs ++ rest) = .ok (segment, rest) := by
  cases h with
  | wildcard => rfl
  | property hname =>
    have hread : readName expected (cs ++ rest) = .ok (_, rest) := readName_append hname stops
    rw [readMember.eq_def]
    split
    · next heq =>
      -- The wildcard is no character of a name.
      obtain ⟨c, tail, rfl⟩ := List.exists_cons_of_ne_nil hname.ne_nil
      obtain ⟨rfl, -⟩ := List.cons.inj heq
      exact absurd (hname.forall_mem _ List.mem_cons_self) (by decide)
    · rw [hread]
      rfl

/-- What is read after a point is a name or `*`. -/
theorem exists_memberText_of_readMember {expected : Expectation} {cs rest : List Char}
    {segment : Segment} (h : readMember expected cs = .ok (segment, rest)) :
    ∃ pre, cs = pre ++ rest ∧ MemberText pre segment := by
  rw [readMember.eq_def] at h
  split at h
  · cases h
    exact ⟨['*'], rfl, .wildcard⟩
  · simp only [bind_eq_ok_iff, Prod.exists] at h
    obtain ⟨name, after, hname, h⟩ := h
    cases h
    obtain ⟨pre, rfl, hpre⟩ := exists_nameText_of_readName hname
    exact ⟨pre, rfl, .property hpre⟩

/-- A segment is read whole if no name goes on behind it. -/
theorem readSegment_append {cs rest : List Char} {piece : List Segment}
    (h : SegmentText cs piece) (stops : Stops isNameChar rest) :
    readSegment (cs ++ rest) = .ok (some (piece, rest)) := by
  cases h with
  | @member cs segment hmember =>
    have hread : readMember .member (cs ++ rest) = .ok (segment, rest) :=
      readMember_append hmember stops
    obtain ⟨c, tail, rfl, hpoint, -⟩ := hmember.exists_cons
    rw [List.cons_append, readSegment.eq_def]
    -- One point is not the start of a descent, since no member starts with a point.
    split
    · next heq =>
      obtain ⟨rfl, -⟩ := List.cons.inj (List.cons.inj heq).2
      exact absurd rfl hpoint
    · next heq =>
      obtain ⟨rfl, -⟩ := List.cons.inj (List.cons.inj heq).2
      exact absurd rfl hpoint
    · next heq =>
      obtain ⟨-, rfl⟩ := List.cons.inj heq
      rw [hread]
      rfl
    · next heq => exact absurd (List.cons.inj heq).1 (by decide)
    · next hother _ => exact absurd rfl (hother _)
  | @bracket cs segment hbracket =>
    obtain ⟨tail, rfl, hread⟩ := hbracket.exists_readBracket rest
    rw [List.cons_append, readSegment, hread]
    rfl
  | @descendMember cs segment hmember =>
    have hread : readMember .descendant (cs ++ rest) = .ok (segment, rest) :=
      readMember_append hmember stops
    obtain ⟨c, tail, rfl, -, hbracket⟩ := hmember.exists_cons
    rw [List.cons_append, List.cons_append, readSegment.eq_def]
    -- A descent to a bracket is tried first, but no member starts with one.
    split
    · next heq =>
      obtain ⟨rfl, -⟩ := List.cons.inj (List.cons.inj (List.cons.inj heq).2).2
      exact absurd rfl hbracket
    · next heq =>
      obtain ⟨-, rfl⟩ := List.cons.inj (List.cons.inj heq).2
      rw [hread]
      rfl
    · next hother heq =>
      obtain ⟨-, rfl⟩ := List.cons.inj heq
      exact absurd rfl (hother _)
    · next heq => exact absurd (List.cons.inj heq).1 (by decide)
    · next hother _ => exact absurd rfl (hother _)
  | @descendBracket cs segment hbracket =>
    obtain ⟨tail, rfl, hread⟩ := hbracket.exists_readBracket rest
    rw [List.cons_append, List.cons_append, List.cons_append, readSegment, hread]
    rfl

/-- What is read as a segment is the text of one piece. -/
theorem exists_segmentText_of_readSegment {cs rest : List Char} {piece : List Segment}
    (h : readSegment cs = .ok (some (piece, rest))) :
    ∃ pre, cs = pre ++ rest ∧ SegmentText pre piece := by
  rw [readSegment.eq_def] at h
  -- The cases of the reader are the constructors of `SegmentText`.
  split at h
  · simp only [bind_eq_ok_iff, Prod.exists] at h
    obtain ⟨segment, after, hread, h⟩ := h
    cases h
    obtain ⟨pre, heq, hpre⟩ := exists_bracketText_of_readBracket hread
    exact ⟨'.' :: '.' :: pre, by rw [heq]; rfl, .descendBracket hpre⟩
  · simp only [bind_eq_ok_iff, Prod.exists] at h
    obtain ⟨segment, after, hread, h⟩ := h
    cases h
    obtain ⟨pre, rfl, hpre⟩ := exists_memberText_of_readMember hread
    exact ⟨'.' :: '.' :: pre, rfl, .descendMember hpre⟩
  · simp only [bind_eq_ok_iff, Prod.exists] at h
    obtain ⟨segment, after, hread, h⟩ := h
    cases h
    obtain ⟨pre, rfl, hpre⟩ := exists_memberText_of_readMember hread
    exact ⟨'.' :: pre, rfl, .member hpre⟩
  · simp only [bind_eq_ok_iff, Prod.exists] at h
    obtain ⟨segment, after, hread, h⟩ := h
    cases h
    obtain ⟨pre, heq, hpre⟩ := exists_bracketText_of_readBracket hread
    exact ⟨pre, heq, .bracket hpre⟩
  · cases h

/-- A piece starts with a point or a bracket. -/
theorem SegmentText.stops {cs : List Char} {piece : List Segment} (h : SegmentText cs piece)
    (rest : List Char) : cs ≠ [] ∧ Stops isNameChar (cs ++ rest) := by
  cases h with
  | member => exact ⟨List.cons_ne_nil _ _, stops_cons.2 (by decide)⟩
  | descendMember => exact ⟨List.cons_ne_nil _ _, stops_cons.2 (by decide)⟩
  | descendBracket => exact ⟨List.cons_ne_nil _ _, stops_cons.2 (by decide)⟩
  | bracket hbracket =>
    obtain ⟨tail, rfl, -⟩ := hbracket.exists_readBracket []
    exact ⟨List.cons_ne_nil _ _, stops_cons.2 (by decide)⟩

/-! ### Paths -/

/-- The reader gives a text its segments exactly when the grammar does. -/
theorem readPath_eq_ok_iff {cs : List Char} {segments : List Segment} :
    readPath cs = .ok segments ↔ PathText cs segments := by
  constructor
  · intro h
    rw [readPath.eq_def] at h
    split at h
    · cases h
      exact .empty
    · simp only [bind_eq_ok_iff, Prod.exists] at h
      obtain ⟨pieces, after, hmany, h⟩ := h
      obtain ⟨pre, rfl, hpre⟩ :=
        exists_sequenceText_of_readMany exists_segmentText_of_readSegment hmany
      cases after with
      | nil =>
        cases h
        rw [List.append_nil]
        exact .rooted hpre
      | cons c after => cases h
    · cases h
  · intro h
    cases h with
    | empty => rfl
    | @rooted cs pieces hpieces =>
      -- The count is the length of the text, and every piece takes at least one character.
      have hmany : readMany readSegment cs.length (cs ++ []) = .ok (pieces, []) :=
        readMany_append readSegment_append (fun rest h => SegmentText.stops h rest) hpieces
          (stops_nil _) rfl (Nat.le_refl _)
      rw [List.append_nil] at hmany
      rw [readPath, hmany]
      rfl

/-- No text has two readings. -/
theorem PathText.unique {cs : List Char} {segments other : List Segment}
    (h : PathText cs segments) (h' : PathText cs other) : segments = other := by
  -- Both are what the reader makes of the text.
  have heq : (Except.ok segments : Except Stop (List Segment)) = .ok other :=
    (readPath_eq_ok_iff.2 h).symm.trans (readPath_eq_ok_iff.2 h')
  exact Except.ok.inj heq

/-- A path is compiled from a text exactly when the grammar derives its segments from the text. -/
theorem compile_eq_ok_iff {text : String} {path : Path} :
    compile text = .ok path ↔ path.text = text ∧ PathText text.toList path.segments := by
  rw [← readPath_eq_ok_iff, compile]
  cases hread : readPath text.toList with
  | ok segments =>
    obtain ⟨pathText, pathSegments⟩ := path
    simp [eq_comm]
  | error stop => simp

/-- The segments that a text compiles to are exactly the ones that the grammar derives from it,
and the grammar derives at most one list of segments from a text. -/
theorem compile_iff_pathText (text : String) (segments : List Segment) :
    ((∃ path, compile text = .ok path ∧ path.segments = segments) ↔
        PathText text.toList segments) ∧
      ∀ other, PathText text.toList segments → PathText text.toList other → other = segments := by
  refine ⟨⟨?_, ?_⟩, ?_⟩
  · rintro ⟨path, hcompile, rfl⟩
    exact (compile_eq_ok_iff.1 hcompile).2
  · intro h
    exact ⟨⟨text, segments⟩, compile_eq_ok_iff.2 ⟨rfl, h⟩, rfl⟩
  · intro other h h'
    exact h'.unique h

end JsonDoc.Path.Grammar

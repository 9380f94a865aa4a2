import JsonDoc.Proofs.Path.Condition

/-!
# `JsonDoc.Proofs.Path.Stop`: where readers stop

A reader that fails says where it stopped. `StopsIn` relates the place to the rule that the reader
reads: what stands in front of the place is the front of some text of the rule, so that the failure
is no earlier than it has to be. The one exception is a reader that runs out of budget, which stops
in front of something that is right where it stands.

There is one lemma for each reader, for tokens and conditions here and for segments in
`JsonDoc.Proofs.Path.Fault`. A reader stops where it is, and then the rule has a text with that
front (`stopsIn_after`), or where one of its parts stops, and then each text of the part is within a
text of the rule (`StopsIn.within`). Chains of connectives are read with what is left to spend, so
that the lemmas for conditions carry it as `SoundWithin` does: they are the fields of `StopsWithin`.
-/

set_option autoImplicit false

namespace JsonDoc.Path.Grammar

open Number Text

/-! ### Places -/

section
variable {α β : Type}

/-- The text is the front of a text of the rule. -/
def Opens (rule : List Char → α → Prop) (front : List Char) : Prop :=
  ∃ more a, rule (front ++ more) a

/-- The place of the stop is in the text, and what stands in front of it opens a text of the rule
unless the budget was spent. -/
def StopsIn (rule : List Char → α → Prop) (cs : List Char) (stop : Stop) : Prop :=
  ∃ front, cs = front ++ stop.rest ∧ (stop.expected ≠ .shallower → Opens rule front)

variable {rule : List Char → α → Prop} {inner : List Char → β → Prop} {cs : List Char} {stop : Stop}

/-- A reader that stops behind a text stops in its rule if the text can be completed. -/
theorem stopsIn_after (front : List Char) {more : List Char} {a : α} (h : rule (front ++ more) a)
    (expected : Expectation) (cs : List Char) : StopsIn rule (front ++ cs) ⟨expected, cs⟩ :=
  ⟨front, rfl, fun _ => ⟨more, a, h⟩⟩

/-- A reader that stops at once stops in front of any text of its rule. -/
theorem stopsIn_here {text : List Char} {a : α} (h : rule text a) (expected : Expectation)
    (cs : List Char) : StopsIn rule cs ⟨expected, cs⟩ :=
  stopsIn_after [] h expected cs

/-- A budget that was spent says nothing of the text, so any place will do for it. -/
theorem stopsIn_shallower (rule : List Char → α → Prop) (front rest : List Char) :
    StopsIn rule (front ++ rest) ⟨.shallower, rest⟩ :=
  ⟨front, rfl, fun h => absurd rfl h⟩

/-- A reader stops where one of its parts does, if whatever the part could read is within a text of
the rule. -/
theorem StopsIn.within (h : StopsIn inner cs stop) (front : List Char)
    (completes : ∀ text b, inner text b → ∃ back a, rule (front ++ text ++ back) a) :
    StopsIn rule (front ++ cs) stop := by
  obtain ⟨before, rfl, hopens⟩ := h
  refine ⟨front ++ before, by simp, fun hdeep => ?_⟩
  obtain ⟨more, b, hinner⟩ := hopens hdeep
  obtain ⟨back, a, hrule⟩ := completes _ b hinner
  exact ⟨more ++ back, a, by simpa using hrule⟩

/-- A text is its blanks and what is left when they are skipped. -/
theorem exists_skipSpaces_eq (cs : List Char) :
    ∃ bs rest, cs = bs ++ rest ∧ Blanks bs ∧ skipSpaces cs = rest := by
  obtain ⟨bs, heq, hblanks⟩ := exists_blanks_append_skipSpaces cs
  exact ⟨bs, skipSpaces cs, heq, hblanks, rfl⟩

/-- A character that is not found is expected where it should have been. -/
theorem eq_of_expectChar {c : Char} {expected : Expectation}
    (h : expectChar c expected cs = .error stop) : stop = ⟨expected, cs⟩ := by
  rw [expectChar.eq_def] at h
  split at h
  · split at h
    · cases h
    · cases h
      rfl
  · cases h
    rfl

/-- What is in brackets or parentheses stops inside them, or where they should close. -/
theorem stopsIn_enclosed {γ : Type} {read : List Char → Except Stop (β × List Char)} {f : β → γ}
    (opening : List Char) {close : Char} {expected : Expectation}
    (sound : ∀ {cs b rest}, read cs = .ok (b, rest) → ∃ pre, cs = pre ++ rest ∧ inner pre b)
    (stops : ∀ {cs stop}, read cs = .error stop → StopsIn inner cs stop)
    (enclosed : ∀ {before text after b}, Blanks before → inner text b → Blanks after →
      ∃ a, rule (opening ++ (before ++ text ++ after ++ [close])) a)
    (h : (read (skipSpaces cs) >>= fun x => expectChar close expected (skipSpaces x.2) >>=
      fun rest => pure (f x.1, rest)) = .error stop) : StopsIn rule (opening ++ cs) stop := by
  obtain ⟨before, cs, rfl, hbefore, hskip⟩ := exists_skipSpaces_eq cs
  rw [hskip, bind_eq_error_iff] at h
  rw [← List.append_assoc]
  obtain hread | ⟨⟨b, rest⟩, hread, h⟩ := h
  · -- Whatever completes the inner text can be closed right after it.
    refine (stops hread).within _ ?_
    intro text b htext
    obtain ⟨a, hrule⟩ := enclosed hbefore htext blanks_nil
    exact ⟨[close], a, by simpa using hrule⟩
  · obtain ⟨pre, rfl, htext⟩ := sound hread
    obtain ⟨after, rest, rfl, hafter, hskip⟩ := exists_skipSpaces_eq rest
    obtain ⟨a, hrule⟩ := enclosed hbefore htext hafter
    -- Behind what was read and the blanks after it, only the closing mark is missing.
    have hclose := eq_of_expectChar (eq_error_of_bind (fun _ => ⟨_, rfl⟩) h)
    rw [hskip] at hclose
    cases hclose
    rw [← List.append_assoc, ← List.append_assoc]
    refine stopsIn_after _ (?_ : rule (_ ++ [close]) a) _ _
    simpa using hrule

/-- A repetition stops where one of its parts does, behind those that were read. -/
theorem stopsIn_readMany {step : List Char → Except Stop (Option (β × List Char))}
    (sound : ∀ {cs a rest}, step cs = .ok (some (a, rest)) → ∃ pre, cs = pre ++ rest ∧ inner pre a)
    (stops : ∀ {cs stop}, step cs = .error stop → StopsIn inner cs stop) {count : Nat}
    (h : readMany step count cs = .error stop) : StopsIn (SequenceText inner) cs stop := by
  induction count generalizing cs with
  | zero => cases h
  | succ count ih =>
    rw [readMany, bind_eq_error_iff] at h
    obtain h | ⟨found, hstep, h⟩ := h
    · -- The first part stops, and completed it is the only one.
      refine (stops h).within [] ?_
      intro text a htext
      exact ⟨[], [a], .cons htext .nil⟩
    · cases found with
      | none => cases h
      | some found =>
        -- One part is read, and the stop is further on.
        obtain ⟨a, after⟩ := found
        obtain ⟨pre, rfl, hpre⟩ := sound hstep
        refine (ih (eq_error_of_bind (fun _ => ⟨_, rfl⟩) h)).within pre ?_
        intro text as htext
        exact ⟨[], a :: as, by simpa using SequenceText.cons hpre htext⟩

end

/-! ### Tokens -/

section
variable {cs : List Char} {stop : Stop}

/-- A name stops in front of its first character. -/
theorem eq_of_readName {expected : Expectation} (h : readName expected cs = .error stop) :
    stop = ⟨expected, cs⟩ := by
  rw [readName] at h
  dsimp only at h
  split at h
  · cases h
    rfl
  · cases h

/-- A quoted string that is not closed can be closed, and a faulty escape could have been
another. -/
theorem stopsIn_readQuoted {quote : Char} {before : List Char}
    (h : readQuoted quote before cs = .error stop) : StopsIn (ContentText quote) cs stop := by
  have hescape : ContentText quote ['\\', 'n'] ['\n'] := .escape (by decide) .nil
  fun_induction readQuoted quote before cs with
  | case1 =>
    -- The text ends, and only the quote is missing.
    cases h
    exact stopsIn_here .nil _ []
  | case2 before a b c d more e he ih =>
    refine (ih h).within ['\\', 'u', a, b, c, d] ?_
    intro text s htext
    exact ⟨[], e :: s, by simpa using ContentText.code (hexChar?_eq_some_iff.1 he) htext⟩
  | case3 before a b c d more he =>
    -- A faulty escape is reported behind its backslash, and any escape can stand there.
    cases h
    exact stopsIn_after ['\\'] hescape _ _
  | case4 before c more _ e he ih =>
    refine (ih h).within ['\\', c] ?_
    intro text s htext
    exact ⟨[], e :: s, by simpa using ContentText.escape (escaped?_eq_some_iff.1 he) htext⟩
  | case5 =>
    cases h
    exact stopsIn_after ['\\'] hescape _ _
  | case6 =>
    cases h
    exact stopsIn_after ['\\'] hescape _ _
  | case7 => cases h
  | case8 before c more hback hquote ih =>
    refine (ih h).within [c] ?_
    intro text s htext
    exact ⟨[], c :: s, by simpa using ContentText.plain hquote hback htext⟩

/-- The string with its quotes, as it stands in brackets and in comparisons. -/
theorem stopsIn_readQuoted_quoted {quote : Char} (hquote : quote = '"' ∨ quote = '\'')
    (h : readQuoted quote [] cs = .error stop) : StopsIn QuotedText (quote :: cs) stop := by
  refine (stopsIn_readQuoted h).within [quote] ?_
  intro text content htext
  exact ⟨[quote], String.ofList content, .intro hquote htext⟩

/-- What a rule makes of a string with its quotes stops where the string does. -/
theorem stopsIn_quoted {α : Type} {rule : List Char → α → Prop} {make : String → α}
    (hrule : ∀ text s, QuotedText text s → rule text (make s)) {quote : Char}
    (hquote : quote = '"' ∨ quote = '\'')
    (h : (readQuoted quote [] cs >>= fun x => pure (make x.1, x.2)) = .error stop) :
    StopsIn rule (quote :: cs) stop := by
  have hread := eq_error_of_bind (fun _ => ⟨_, rfl⟩) h
  refine (stopsIn_readQuoted_quoted hquote hread).within [] ?_
  intro text s htext
  exact ⟨[], make s, hrule _ s (by simpa using htext)⟩

/-- A literal stops in its string, or at once. -/
theorem stopsIn_readLiteral (h : readLiteral cs = .error stop) : StopsIn LiteralText cs stop := by
  rw [readLiteral.eq_def] at h
  split at h
  · cases h
  · cases h
  · cases h
  · exact stopsIn_quoted (fun _ _ => .string) (.inl rfl) h
  · exact stopsIn_quoted (fun _ _ => .string) (.inr rfl) h
  · split at h
    · cases h
    · cases h
      -- Any literal could have stood here.
      exact stopsIn_here .null _ _

/-! ### Tests -/

/-- The next name of a field stops behind its point. -/
theorem stopsIn_readFieldName (h : readFieldName cs = .error stop) :
    StopsIn FieldNameText cs stop := by
  rw [readFieldName.eq_def] at h
  split at h
  · next rest =>
    cases hread : readName .fieldName rest with
    | ok found =>
      rw [hread] at h
      cases h
    | error inner =>
      rw [hread] at h
      cases h
      cases eq_of_readName hread
      have hname : NameText ['a'] "a" := ⟨by decide, rfl⟩
      exact stopsIn_after ['.'] (.intro hname) _ _
  · cases h

/-- A test stops at the mark of the candidate, in its field or in its literal. -/
theorem stopsIn_readTest (h : readTest cs = .error stop) : StopsIn TestText cs stop := by
  rw [readTest.eq_def] at h
  split at h
  · next rest =>
    rw [bind_eq_error_iff] at h
    obtain hfield | ⟨⟨field, after⟩, hfield, h⟩ := h
    · refine (stopsIn_readMany exists_fieldNameText_of_readFieldName stopsIn_readFieldName
        hfield).within ['@'] ?_
      intro text field htext
      exact ⟨[], .present field, by simpa using TestText.present htext⟩
    · obtain ⟨pre, rfl, hpre⟩ :=
        exists_sequenceText_of_readMany exists_fieldNameText_of_readFieldName hfield
      dsimp only at h
      split at h
      · cases h
      · next op afterOp hop =>
        -- The literal is behind the field, the comparison and the blanks around it.
        have hliteral := eq_error_of_bind (fun _ => ⟨_, rfl⟩) h
        obtain ⟨blanks, rest, rfl, hblanks, hskip⟩ := exists_skipSpaces_eq afterOp
        obtain ⟨before, after, rfl, hbefore, hskip'⟩ := exists_skipSpaces_eq after
        rw [hskip'] at hop
        obtain rfl := eq_append_of_readComparison? hop
        rw [hskip] at hliteral
        have hstops : StopsIn TestText ('@' :: (pre ++ before ++ op.text ++ blanks) ++ rest)
            stop := by
          refine (stopsIn_readLiteral hliteral).within _ ?_
          intro text literal hliteral
          exact ⟨[], .compare field op literal,
            by simpa using TestText.compare hpre hbefore hblanks hliteral⟩
        simpa using hstops
  · cases h
    exact stopsIn_here testText_candidate _ _

end

/-! ### Conditions -/

/-- The terms within the budget. -/
def TermWithin (budget : Nat) (cs : List Char) (condition : Condition) : Prop :=
  ∃ n ≤ budget, TermText n cs condition

/-- The texts that make a longer conjunction of the one that was read, within the budget. -/
def ConjunctionWithin (budget : Nat) (read cs : List Char) (condition : Condition) : Prop :=
  ∃ n k, n ≤ budget ∧ ConjunctionText n k (read ++ cs) condition

/-- The texts that make a longer condition of the one that was read, within the budget. -/
def ConditionWithin (budget : Nat) (read cs : List Char) (condition : Condition) : Prop :=
  ∃ n k, n ≤ budget ∧ ConditionText n k (read ++ cs) condition

/-- Where the readers of conditions stop within the budget. A chain of `k` connectives had
`k + budget` to spend. -/
structure StopsWithin (budget : Nat) : Prop where
  term : ∀ {cs stop}, readTerm budget cs = .error stop → StopsIn (TermWithin budget) cs stop
  ands : ∀ {pre cs left stop n k}, ConjunctionText n k pre left → n ≤ k + budget →
    readAnds budget left cs = .error stop →
    StopsIn (ConjunctionWithin (k + budget) pre) cs stop
  ors : ∀ {pre cs left stop n k}, ConditionText n k pre left → n ≤ k + budget →
    readOrs budget left cs = .error stop → StopsIn (ConditionWithin (k + budget) pre) cs stop

section
variable {budget : Nat} {cs pre : List Char} {left : Condition} {stop : Stop} {n k : Nat}

/-- A conjunction stops in its first term, or in the chain behind it. -/
theorem StopsWithin.conjunction (h : StopsWithin budget)
    (hread : readConjunction budget cs = .error stop) :
    StopsIn (ConjunctionWithin budget []) cs stop := by
  rw [readConjunction, bind_eq_error_iff] at hread
  obtain hterm | ⟨⟨first, after⟩, hterm, hands⟩ := hread
  · refine (h.term hterm).within [] ?_
    rintro text condition ⟨n, hn, htext⟩
    exact ⟨[], condition, n, 0, hn, by simpa using ConjunctionText.term htext⟩
  · obtain ⟨pre, n, rfl, hpre, hn⟩ := (soundWithin budget).term hterm
    refine (h.ands (.term hpre) (by omega) hands).within pre ?_
    rintro text condition ⟨m, j, hm, htext⟩
    exact ⟨[], condition, m, j, by omega, by simpa using htext⟩

/-- A condition stops in its first conjunction, or in the chain behind it. -/
theorem StopsWithin.condition (h : StopsWithin budget)
    (hread : readCondition budget cs = .error stop) :
    StopsIn (ConditionWithin budget []) cs stop := by
  rw [readCondition_eq, bind_eq_error_iff] at hread
  obtain hconjunction | ⟨⟨first, after⟩, hconjunction, hors⟩ := hread
  · refine (h.conjunction hconjunction).within [] ?_
    rintro text condition ⟨n, k, hn, htext⟩
    exact ⟨[], condition, n, 0, hn, by simpa using ConditionText.conjunction htext⟩
  · obtain ⟨pre, n, k, rfl, hpre, hn⟩ := (soundWithin budget).conjunction hconjunction
    refine (h.ors (.conjunction hpre) (by omega) hors).within pre ?_
    rintro text condition ⟨m, j, hm, htext⟩
    exact ⟨[], condition, m, j, by omega, by simpa using htext⟩

/-- A condition that was read is one within the budget, which is what may be completed to a
filter. -/
theorem exists_conditionWithin_of_readCondition {rest : List Char} {condition : Condition}
    (h : readCondition budget cs = .ok (condition, rest)) :
    ∃ pre, cs = pre ++ rest ∧ ConditionWithin budget [] pre condition := by
  obtain ⟨pre, n, k, heq, hpre, hn⟩ := (soundWithin budget).condition h
  exact ⟨pre, heq, n, k, hn, hpre⟩

/-- A term that is a test stops where the test does. -/
theorem stopsIn_term_of_readTest (h : readTest cs = .error stop) :
    StopsIn (TermWithin budget) cs stop := by
  refine (stopsIn_readTest h).within [] ?_
  intro text condition htext
  exact ⟨[], condition, 0, Nat.zero_le _, by simpa using TermText.test htext⟩

/-- With nothing to spend, a parenthesis or one more connective is where the reader gives up. -/
theorem stopsWithin_zero : StopsWithin 0 where
  term := by
    intro cs stop h
    rw [readTerm.eq_def] at h
    dsimp only at h
    split at h
    · cases h
      -- A parenthesis: the reader gives up for want of budget, not for the text.
      exact stopsIn_shallower _ [] _
    · exact stopsIn_term_of_readTest h
  ands := by
    intro pre cs left stop n k hpre hn h
    rw [readAnds] at h
    split at h
    · cases h
    · next hdouble =>
      cases h
      obtain ⟨before, blanks, rfl, -, -⟩ := exists_of_afterDoubled? hdouble
      exact stopsIn_shallower _ _ _
  ors := by
    intro pre cs left stop n k hpre hn h
    rw [readOrs] at h
    split at h
    · cases h
    · next hdouble =>
      cases h
      obtain ⟨before, blanks, rfl, -, -⟩ := exists_of_afterDoubled? hdouble
      exact stopsIn_shallower _ _ _

/-- A group stops inside its condition, or where its parenthesis should close. -/
theorem StopsWithin.term_succ (ih : StopsWithin budget)
    (h : readTerm (budget + 1) cs = .error stop) : StopsIn (TermWithin (budget + 1)) cs stop := by
  -- The reader is opened twice: in `h` for the cases, and in `hread` for what a group does.
  have hread := h
  rw [readTerm.eq_def] at h
  dsimp only at h
  split at h
  · next after =>
    rw [readTerm_group] at hread
    refine stopsIn_enclosed (f := id) ['('] exists_conditionWithin_of_readCondition ih.condition ?_
      hread
    rintro before text after condition hbefore ⟨n, k, hn, htext⟩ hafter
    exact ⟨condition, n + 1, by omega, .group hbefore htext hafter⟩
  · exact stopsIn_term_of_readTest h

/-- A conjunction stops in the term after `&&`, or further on in the chain that it makes. -/
theorem StopsWithin.ands_succ (ih : StopsWithin budget) (hpre : ConjunctionText n k pre left)
    (hn : n ≤ k + (budget + 1)) (h : readAnds (budget + 1) left cs = .error stop) :
    StopsIn (ConjunctionWithin (k + (budget + 1)) pre) cs stop := by
  cases hdouble : afterDoubled? '&' cs with
  | none =>
    rw [readAnds_eq_self hdouble] at h
    cases h
  | some after =>
    obtain ⟨before, blanks, rfl, hbefore, hblanks⟩ := exists_of_afterDoubled? hdouble
    rw [readAnds_succ hdouble, bind_eq_error_iff] at h
    obtain hterm | ⟨⟨right, after'⟩, hterm, h⟩ := h
    · refine (ih.term hterm).within _ ?_
      -- Any term that is within what is left completes the chain.
      rintro text right ⟨m, hm, htext⟩
      refine ⟨[], .and left right, max n (k + 1 + m), k + 1, by omega, ?_⟩
      simpa using ConjunctionText.and hpre hbefore hblanks htext
    · -- What was read so far and this term make a longer chain, with one less to spend.
      obtain ⟨ds, m, rfl, hds, hm⟩ := (soundWithin budget).term hterm
      rw [← List.append_assoc]
      refine (ih.ands (.and hpre hbefore hblanks hds) (by omega) h).within _ ?_
      rintro text condition ⟨m', j, hm', htext⟩
      exact ⟨[], condition, m', j, by omega, by simpa using htext⟩

/-- A condition stops in the conjunction after `||`, or further on in the chain that it makes. -/
theorem StopsWithin.ors_succ (ih : StopsWithin budget) (hpre : ConditionText n k pre left)
    (hn : n ≤ k + (budget + 1)) (h : readOrs (budget + 1) left cs = .error stop) :
    StopsIn (ConditionWithin (k + (budget + 1)) pre) cs stop := by
  cases hdouble : afterDoubled? '|' cs with
  | none =>
    rw [readOrs_eq_self hdouble] at h
    cases h
  | some after =>
    obtain ⟨before, blanks, rfl, hbefore, hblanks⟩ := exists_of_afterDoubled? hdouble
    rw [readOrs_succ hdouble, bind_eq_error_iff] at h
    obtain hconjunction | ⟨⟨right, after'⟩, hconjunction, h⟩ := h
    · refine (ih.conjunction hconjunction).within _ ?_
      rintro text right ⟨m, j, hm, htext⟩
      refine ⟨[], .or left right, max n (k + 1 + m), k + 1, by omega, ?_⟩
      simpa using ConditionText.or hpre hbefore hblanks htext
    · -- As for `&&`, with a whole conjunction on the right.
      obtain ⟨ds, m, j, rfl, hds, hm⟩ := (soundWithin budget).conjunction hconjunction
      rw [← List.append_assoc]
      refine (ih.ors (.or hpre hbefore hblanks hds) (by omega) h).within _ ?_
      rintro text condition ⟨m', i, hm', htext⟩
      exact ⟨[], condition, m', i, by omega, by simpa using htext⟩

end

/-- Induction on the budget, as for what is read. -/
theorem stopsWithin (budget : Nat) : StopsWithin budget := by
  induction budget with
  | zero => exact stopsWithin_zero
  | succ budget ih => exact ⟨ih.term_succ, ih.ands_succ, ih.ors_succ⟩

end JsonDoc.Path.Grammar

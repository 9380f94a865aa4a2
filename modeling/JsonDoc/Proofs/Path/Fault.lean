import JsonDoc.Proofs.Path.Reading
import JsonDoc.Proofs.Path.Stop

/-!
# `JsonDoc.Proofs.Path.Fault`: what the fault of a path says

A text that is no path has a fault: a place, what stands there, and what was expected. The readers
of segments stop as those of tokens and conditions do (`StopsIn`), and so does the reader of whole
paths (`stopsIn_readPath`). So what stands in front of the place is the front of a path, but for
conditions that are nested too deeply.

`fault_of_compile` tells this of the text and its bytes: the place is between two characters, the
token stands there, and it is empty only at the end.
-/

set_option autoImplicit false

namespace JsonDoc.Path.Grammar

open Number Text

/-! ### Segments -/

section
variable {cs : List Char} {stop : Stop}

/-- A filter stops at its parentheses, or where its condition does. -/
theorem stopsIn_readFilter (h : readFilter cs = .error stop) :
    StopsIn SelectorText ('?' :: cs) stop := by
  rw [readFilter, bind_eq_error_iff] at h
  obtain hopen | ⟨rest, hopen, h⟩ := h
  · cases eq_of_expectChar hopen
    have hcondition : ConditionText 0 0 ['@'] (.present []) :=
      .conjunction (.term termText_candidate)
    have hfilter : SelectorText ('?' :: '(' :: ([] ++ ['@'] ++ [] ++ [')'])) _ :=
      .filter blanks_nil hcondition (Nat.zero_le _) blanks_nil
    exact stopsIn_after ['?'] hfilter _ _
  · obtain rfl := expectChar_eq_ok_iff.1 hopen
    refine stopsIn_enclosed ['?', '('] exists_conditionWithin_of_readCondition
      (stopsWithin maxConditionHeight).condition ?_ h
    rintro before text after condition hbefore ⟨n, k, hn, htext⟩ hafter
    exact ⟨.filter condition, .filter hbefore htext hn hafter⟩

/-- A selector stops where the reader that its first character picks does. -/
theorem stopsIn_readSelector (h : readSelector cs = .error stop) :
    StopsIn SelectorText cs stop := by
  rw [readSelector.eq_def] at h
  split at h
  · cases h
  · exact stopsIn_readFilter h
  · exact stopsIn_quoted (fun _ _ => .property) (.inl rfl) h
  · exact stopsIn_quoted (fun _ _ => .property) (.inr rfl) h
  · split at h
    · cases h
    · cases h
      exact stopsIn_here .wildcard _ _

/-- A bracket stops in its selector, or in front of the bracket that closes it. -/
theorem stopsIn_readBracket (h : readBracket cs = .error stop) :
    StopsIn BracketText ('[' :: cs) stop := by
  refine stopsIn_enclosed (f := id) ['['] exists_selectorText_of_readSelector stopsIn_readSelector
    ?_ h
  intro before text after segment hbefore htext hafter
  exact ⟨segment, .intro hbefore htext hafter⟩

/-- After a point only a name or `*` may stand. -/
theorem stopsIn_readMember {expected : Expectation} (h : readMember expected cs = .error stop) :
    StopsIn MemberText cs stop := by
  rw [readMember.eq_def] at h
  split at h
  · cases h
  · cases eq_of_readName (eq_error_of_bind (fun _ => ⟨_, rfl⟩) h)
    exact stopsIn_here .wildcard _ _

/-- A segment stops in what follows its points, or in its bracket. -/
theorem stopsIn_readSegment (h : readSegment cs = .error stop) : StopsIn SegmentText cs stop := by
  rw [readSegment.eq_def] at h
  split at h
  · -- After two points a bracket or a member, after one a member, else a bracket.
    have hbracket := stopsIn_readBracket (eq_error_of_bind (fun _ => ⟨_, rfl⟩) h)
    refine hbracket.within ['.', '.'] ?_
    intro text segment htext
    exact ⟨[], _, .descendBracket (by simpa using htext)⟩
  · have hmember := stopsIn_readMember (eq_error_of_bind (fun _ => ⟨_, rfl⟩) h)
    refine hmember.within ['.', '.'] ?_
    intro text segment htext
    exact ⟨[], _, .descendMember (by simpa using htext)⟩
  · have hmember := stopsIn_readMember (eq_error_of_bind (fun _ => ⟨_, rfl⟩) h)
    refine hmember.within ['.'] ?_
    intro text segment htext
    exact ⟨[], _, .member (by simpa using htext)⟩
  · have hbracket := stopsIn_readBracket (eq_error_of_bind (fun _ => ⟨_, rfl⟩) h)
    refine hbracket.within [] ?_
    intro text segment htext
    exact ⟨[], _, .bracket (by simpa using htext)⟩
  · cases h

/-! ### Paths -/

/-- The reader of paths stops behind the front of a path. -/
theorem stopsIn_readPath (h : readPath cs = .error stop) : StopsIn PathText cs stop := by
  rw [readPath.eq_def] at h
  split at h
  · cases h
  · rw [bind_eq_error_iff] at h
    obtain hmany | ⟨⟨pieces, rest⟩, hmany, h⟩ := h
    · refine (stopsIn_readMany exists_segmentText_of_readSegment stopsIn_readSegment
        hmany).within ['$'] ?_
      intro text pieces htext
      exact ⟨[], pieces.flatten, by simpa using PathText.rooted htext⟩
    · -- All pieces were read, and they are a path without what is left.
      obtain ⟨pre, rfl, hpre⟩ :=
        exists_sequenceText_of_readMany exists_segmentText_of_readSegment hmany
      have hpath : PathText ('$' :: pre ++ []) pieces.flatten := by simpa using PathText.rooted hpre
      cases rest with
      | nil => cases h
      | cons c rest =>
        cases h
        exact stopsIn_after ('$' :: pre) hpath _ _
  · cases h
    exact stopsIn_here .empty _ _

end

/-! ### The text and its bytes -/

/-- The bytes of a string are those of its characters. -/
theorem encodedLength_toList (s : String) : encodedLength s.toList = s.utf8ByteSize := by
  have hlist (cs : List Char) : encodedLength cs = (String.ofList cs).utf8ByteSize := by
    induction cs with
    | nil => rfl
    | cons c cs ih =>
      have hsplit : String.ofList (c :: cs) = String.singleton c ++ String.ofList cs := by
        rw [← String.toList_inj]
        simp
      rw [encodedLength_cons, ih, hsplit, String.utf8ByteSize_append, String.utf8ByteSize_singleton]
  rw [hlist, String.ofList_toList]

/-- Every character has a byte. -/
theorem encodedLength_eq_zero_iff {cs : List Char} : encodedLength cs = 0 ↔ cs = [] := by
  cases cs with
  | nil => exact ⟨fun _ => rfl, fun _ => rfl⟩
  | cons c cs =>
    have hpos := c.utf8Size_pos
    rw [encodedLength_cons]
    simp only [reduceCtorEq, iff_false]
    omega

/-- The token stands where reading stopped. -/
theorem tokenOf_append (rest : List Char) : ∃ after, rest = tokenOf rest ++ after := by
  cases rest with
  | nil => exact ⟨[], rfl⟩
  | cons c rest =>
    rw [tokenOf]
    split
    · exact ⟨_, List.takeWhile_append_dropWhile.symm⟩
    · exact ⟨rest, rfl⟩

/-- Anything but the end has a token. -/
theorem tokenOf_eq_nil_iff {rest : List Char} : tokenOf rest = [] ↔ rest = [] := by
  cases rest with
  | nil => exact Iff.rfl
  | cons c rest =>
    rw [tokenOf]
    split
    · next hc => simp [hc]
    · simp

/-- What a rejected text is told: where the fault is, in bytes and between two characters, what
stands there, and nothing only at its end. Unless a condition is nested too deeply, what stands in
front of the fault is the front of a text that is a path. -/
theorem fault_of_compile {text : String} {fault : Fault} (h : compile text = .error fault) :
    fault.position ≤ text.utf8ByteSize ∧
      (fault.token = "" ↔ fault.position = text.utf8ByteSize) ∧
      ∃ before after : String, text = before ++ (fault.token ++ after) ∧
        before.utf8ByteSize = fault.position ∧
        (fault.expected.detail ≠ "condition nested too deeply" →
          ∃ more path, compile (before ++ more) = .ok path) := by
  rw [compile] at h
  split at h
  · cases h
  · next stop hread =>
    cases h
    -- The text in front of the stop is `before`; position and token are counted from there.
    obtain ⟨before, htext, hopens⟩ := stopsIn_readPath hread
    obtain ⟨after, hrest⟩ := tokenOf_append stop.rest
    have hposition : (stop.fault text.toList).position = encodedLength before := by
      rw [Stop.fault, htext, encodedLength_append, Nat.add_sub_cancel]
    have hsize : text.utf8ByteSize = encodedLength before + encodedLength stop.rest := by
      rw [← encodedLength_toList, htext, encodedLength_append]
    have htoken : (stop.fault text.toList).token = String.ofList (tokenOf stop.rest) := rfl
    refine ⟨by omega, ?_, String.ofList before, String.ofList after, ?_, ?_, ?_⟩
    · have hend : String.ofList (tokenOf stop.rest) = "" ↔ stop.rest = [] := by
        rw [← tokenOf_eq_nil_iff, ← String.toList_inj, String.toList_ofList, String.toList_empty]
      rw [htoken, hend, ← encodedLength_eq_zero_iff]
      omega
    · rw [htoken, ← String.ofList_append, ← hrest, ← String.ofList_append, ← htext,
        String.ofList_toList]
    · rw [hposition, ← encodedLength_toList, String.toList_ofList]
    · intro hdetail
      have hdeep : stop.expected ≠ .shallower := by
        intro hexpected
        rw [Stop.fault, hexpected] at hdetail
        exact hdetail rfl
      -- Unless the nesting was the reason, `before` opens a path.
      obtain ⟨more, segments, hpath⟩ := hopens hdeep
      refine ⟨String.ofList more, ⟨_, segments⟩, compile_eq_ok_iff.2 ⟨rfl, ?_⟩⟩
      rwa [String.toList_append, String.toList_ofList, String.toList_ofList]

/-- The name in front of the filter takes two bytes, and what is compared with is no literal. -/
theorem fault_of_compile_literal :
    ∃ fault before after more, ∃ path : Path,
      compile "$.é[?(@.b == x1)]" = .error fault ∧ fault = ⟨14, "x1", .literal⟩ ∧
      "$.é[?(@.b == x1)]" = before ++ ("x1" ++ after) ∧ before.utf8ByteSize = 14 ∧
      compile (before ++ more) = .ok path := by
  let fault : Fault := ⟨14, "x1", .literal⟩
  have hfault : compile "$.é[?(@.b == x1)]" = .error fault := by decide +kernel
  obtain ⟨-, -, before, after, htext, hbefore, hopens⟩ := fault_of_compile hfault
  obtain ⟨more, path, hpath⟩ := hopens (by decide)
  exact ⟨fault, before, after, more, path, hfault, rfl, htext, hbefore, hpath⟩

end JsonDoc.Path.Grammar

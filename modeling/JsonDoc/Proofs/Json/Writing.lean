import JsonDoc.Json.Writer
import JsonDoc.Proofs.Json.Grammar
import JsonDoc.Proofs.Value.PlainZeros

/-!
# `JsonDoc.Proofs.Json.Writing`: what is written is derived by the grammar

Every writer puts a text of the grammar behind what is there already (`Appends`), as long as the
indent is white space (`Layout.Blank`) and the numbers are integers that are written in digits. The
items of an array and the members of an object are written alike, as parts between commas that each
start a new line (`writeParts`).

`appends_write` is proved by induction on the depth. The text stands for the document without the
signs of its zeros, as it does not show them.
-/

set_option autoImplicit false

namespace JsonDoc

open Number

namespace Json

/-- The indent is white space. -/
def Layout.Blank : Layout → Prop
  | .compact => True
  | .pretty indent => Grammar.Spaces indent.toList

namespace Grammar

/-- The writer puts a text of the given kind behind what is there. -/
def Appends (write : String → String) (kind : List Char → Prop) : Prop :=
  ∃ cs, kind cs ∧ ∀ out, write out = out ++ String.ofList cs

/-! ### White space -/

/-- Nothing is white space. -/
theorem spaces_nil : Spaces [] := by
  intro c mem
  cases mem

/-- White space behind white space. -/
theorem Spaces.append {cs ds : List Char} (hcs : Spaces cs) (hds : Spaces ds) :
    Spaces (cs ++ ds) := by
  intro c mem
  obtain h | h := List.mem_append.1 mem
  · exact hcs c h
  · exact hds c h

/-- An indent of white space stays white space however often it is repeated. -/
theorem exists_repeated {indent : String} (h : Spaces indent.toList) (count : Nat) :
    ∃ cs, Spaces cs ∧ ∀ out, repeated indent out count = out ++ String.ofList cs := by
  induction count with
  | zero => exact ⟨[], spaces_nil, fun out => String.append_empty.symm⟩
  | succ count ih =>
    obtain ⟨cs, hcs, hwrite⟩ := ih
    refine ⟨indent.toList ++ cs, h.append hcs, fun out => ?_⟩
    rw [repeated, hwrite]
    simp [← String.toList_inj]

/-- A new line and its indent are white space. -/
theorem appends_newLine {layout : Layout} (h : layout.Blank) (level : Nat) :
    Appends (layout.newLine level) Spaces := by
  cases layout with
  | compact => exact ⟨[], spaces_nil, fun out => String.append_empty.symm⟩
  | pretty indent =>
    obtain ⟨cs, hcs, hwrite⟩ := exists_repeated h level
    have hline : Spaces ['\n'] := by
      intro c mem
      exact .inr (.inl (List.mem_singleton.1 mem))
    refine ⟨['\n'] ++ cs, hline.append hcs, fun out => ?_⟩
    rw [Layout.newLine, hwrite]
    simp [← String.toList_inj]

/-! ### Strings -/

/-- Every character is written in a form that may stand in a string. -/
theorem charText_stringChar (c : Char) : CharText (stringChar c) c := by
  rw [stringChar.eq_def]
  split
  all_goals try exact .escape (by decide)
  next hquote hback _ _ _ _ _ =>
    split
    · next hcontrol =>
      obtain ⟨a, b, d, e, hfour, hcode⟩ := Path.Grammar.codeText_hexFour (e := c) (by omega)
      rw [hfour]
      exact .code hcode
    · next hplain => exact .plain (Nat.not_lt.1 hplain) hquote hback

/-- Every string is written as a string of the grammar that stands for it. -/
theorem stringText_stringText (s : String) : StringText (stringText s).toList s := by
  have hcontent : ContentText (s.toList.flatMap stringChar) s.toList := by
    induction s.toList with
    | nil => exact .nil
    | cons c cs ih => exact .cons (charText_stringChar c) ih
  have h := StringText.intro hcontent
  rw [String.ofList_toList] at h
  rwa [stringText, String.toList_ofList]

/-! ### Numbers -/

/-- A number that is a safe integer has the text of that integer. -/
theorem numberText_eq {x : Binary64} {n : Int} (h : x.toInt? = some n)
    (hsafe : n.natAbs ≤ maxSafeInteger) : numberText x = String.ofList (integerText n) := by
  have hfinite : x.isFinite = true := by
    cases x with
    | finite => rfl
    | _ => cases h
  rw [numberText, hfinite, safeInteger?_eq_some_iff.2 ⟨h, hsafe⟩]
  rfl

/-- The text of a safe integer is a scalar of the grammar, and that of the number without the sign
of a zero. -/
theorem scalarText_numberText {x : Binary64} {n : Int} (h : x.toInt? = some n)
    (hsafe : n.natAbs ≤ maxSafeInteger) :
    ScalarText (integerText n) (.number x.plainZero) := by
  rw [← Binary64.ofInt_of_toInt? h]
  exact .number (Nat.lt_of_le_of_lt hsafe (by decide))

/-! ### Parts -/

section
variable {α β : Type} {layout : Layout} {level : Nat}

/-- Writes the parts of a container behind `out`, each on a new line, the first after `separator`
and the others after commas. -/
def writeParts (layout : Layout) (level : Nat) (part : α → String → String)
    (separator out : String) : List α → String
  | [] => out
  | a :: rest =>
    writeParts layout level part "," (part a (layout.newLine level (out ++ separator))) rest

/-- Items are written as parts of any kind are. -/
theorem writeItems_eq (separator out : String) (items : List Value) :
    Value.writeItems layout level separator out items
      = writeParts layout level (fun item out => Value.write layout level out item) separator out
          items := by
  induction items generalizing separator out with
  | nil => rfl
  | cons item rest ih => rw [Value.writeItems, writeParts, ih]

/-- Writes a member behind `out`. -/
def writeMember (layout : Layout) (level : Nat) (m : String × Value) (out : String) : String :=
  Value.write layout level (out ++ stringText m.1 ++ layout.colon) m.2

/-- Members are written as parts of any kind are, each behind its key. -/
theorem writeMembers_eq (separator out : String) (members : List (String × Value)) :
    Value.writeMembers layout level separator out members
      = writeParts layout level (writeMember layout level) separator out members := by
  induction members generalizing separator out with
  | nil => rfl
  | cons m rest ih =>
    rw [Value.writeMembers, writeParts, ih]
    rfl

/-- Parts are written between commas, with a new line before each and behind the last. -/
theorem exists_writeParts (hlayout : layout.Blank) {part : α → String → String}
    {kind : List Char → β → Prop} {f : α → β} {as : List α} (hne : as ≠ [])
    (h : ∀ a ∈ as, Appends (part a) (kind · (f a))) (outer : Nat) (separator : String) :
    ∃ cs, PartsText kind cs (as.map f) ∧ ∀ out,
      layout.newLine outer (writeParts layout level part separator out as)
        = out ++ separator ++ String.ofList cs := by
  obtain ⟨before, hbefore, hnewLine⟩ := appends_newLine hlayout level
  induction as generalizing separator with
  | nil => exact absurd rfl hne
  | cons a as ih =>
    obtain ⟨ha, has⟩ := List.forall_mem_cons.1 h
    obtain ⟨cs, hcs, hpart⟩ := ha
    cases as with
    | nil =>
      -- The new line of the closing bracket is white space behind the last part.
      obtain ⟨after, hafter, hend⟩ := appends_newLine hlayout outer
      refine ⟨before ++ cs ++ after, .single hbefore hcs hafter, fun out => ?_⟩
      rw [writeParts, writeParts, hend, hpart, hnewLine]
      simp [← String.toList_inj]
    | cons b as =>
      obtain ⟨more, hmore, hwrite⟩ := ih (List.cons_ne_nil b as) has ","
      refine ⟨before ++ cs ++ [] ++ ',' :: more, .cons hbefore hcs spaces_nil hmore, fun out => ?_⟩
      rw [writeParts, hwrite, hpart, hnewLine]
      simp [← String.toList_inj]

end

/-- A colon may have white space behind it, and has nothing in front. -/
theorem exists_colon (layout : Layout) :
    ∃ after, Spaces after ∧ layout.colon = String.ofList (':' :: after) := by
  cases layout with
  | compact => exact ⟨[], spaces_nil, rfl⟩
  | pretty indent =>
    refine ⟨[' '], fun c mem => ?_, rfl⟩
    exact .inl (List.mem_singleton.1 mem)

section
variable {layout : Layout} {level : Nat}

/-- A member is written as one of the grammar, if its value is. -/
theorem appends_writeMember {kind : List Char → Value → Prop} {key : String} {item v : Value}
    (h : Appends (fun out => Value.write layout level out item) (kind · v)) :
    Appends (writeMember layout level (key, item)) (MemberText kind · (key, v)) := by
  obtain ⟨cs, hcs, hwrite⟩ := h
  obtain ⟨after, hafter, hcolon⟩ := exists_colon layout
  refine ⟨_, .intro (stringText_stringText key) spaces_nil hafter hcs, fun out => ?_⟩
  refine (hwrite _).trans ?_
  rw [hcolon]
  simp [← String.toList_inj]

/-- A scalar is written as one of the grammar; if it is a number it has to be a safe integer. -/
theorem appends_write_scalar {v : Value} (hdepth : v.depth = 0) (hsafe : v.SafeIntegers) :
    Appends (fun out => Value.write layout level out v) (ScalarText · v.plainZeros) := by
  cases v with
  | null => exact ⟨_, .null, fun out => rfl⟩
  | bool b =>
    cases b with
    | false => exact ⟨_, .boolFalse, fun out => rfl⟩
    | true => exact ⟨_, .boolTrue, fun out => rfl⟩
  | number x =>
    obtain ⟨n, hn, hle⟩ := hsafe [] x rfl
    refine ⟨_, scalarText_numberText hn hle, fun out => ?_⟩
    show out ++ numberText x = _
    rw [numberText_eq hn hle]
  | string s =>
    refine ⟨_, .string (stringText_stringText s), fun out => ?_⟩
    show out ++ stringText s = _
    rw [String.ofList_toList]
  | array | object => cases hdepth

/-- A document of limited depth is written as a text of that depth. -/
theorem appends_write (hlayout : layout.Blank) {depth : Nat} {v : Value} (hdepth : v.depth ≤ depth)
    (hv : v.WellFormed) (hsafe : v.SafeIntegers) :
    Appends (fun out => Value.write layout level out v) (ValueText depth · v.plainZeros) := by
  -- The children are written one level further in, and they are one level less deep.
  induction depth generalizing v level with
  | zero => exact appends_write_scalar (Nat.le_zero.1 hdepth) hsafe
  | succ depth ih =>
    have hchild : ∀ child ∈ v.children,
        Appends (fun out => Value.write layout (level + 1) out child)
          (ValueText depth · child.plainZeros) := by
      intro child mem
      exact ih (Value.depth_le_succ_iff.1 hdepth child mem) (hv.of_mem_children mem)
        (hsafe.of_mem_children hv mem)
    cases v with
    | array items =>
      cases items with
      | nil => exact ⟨['[', ']'], .inr (.inl ⟨[], [], rfl, rfl, .empty⟩), fun out => rfl⟩
      | cons item rest =>
        obtain ⟨inner, hinner, hwrite⟩ := exists_writeParts hlayout (List.cons_ne_nil item rest)
          hchild level ""
        rw [← Value.plainZeroItems_eq_map] at hinner
        refine ⟨_, .inr (.inl ⟨inner, _, rfl, rfl, .parts hinner⟩), fun out => ?_⟩
        show layout.newLine level
          (Value.writeItems layout (level + 1) "" (out ++ "[") (item :: rest)) ++ "]" = _
        rw [writeItems_eq, hwrite]
        simp [← String.toList_inj]
    | object members =>
      cases members with
      | nil =>
        refine ⟨['\x7b', '\x7d'], .inr (.inr ⟨[], [], rfl, rfl, ?_, .empty⟩), fun out => rfl⟩
        exact List.nodup_nil
      | cons m rest =>
        have hmember : ∀ m' ∈ m :: rest, Appends (writeMember layout (level + 1) m')
            (MemberText (ValueText depth) · (m'.1, m'.2.plainZeros)) := by
          intro m' mem
          exact appends_writeMember (hchild m'.2 (List.mem_map_of_mem mem))
        obtain ⟨inner, hinner, hwrite⟩ := exists_writeParts hlayout (List.cons_ne_nil m rest)
          hmember level ""
        rw [← Value.plainZeroMembers_eq_map] at hinner
        have nodup : (Members.keys (Value.plainZeroMembers (m :: rest))).Nodup := by
          rw [Value.keys_plainZeroMembers]
          exact Value.stepsDiffer_object.1 hv.stepsDiffer
        refine ⟨_, .inr (.inr ⟨inner, _, rfl, rfl, nodup, .parts hinner⟩), fun out => ?_⟩
        show layout.newLine level
          (Value.writeMembers layout (level + 1) "" (out ++ "\x7b") (m :: rest)) ++ "\x7d" = _
        rw [writeMembers_eq, hwrite]
        simp [← String.toList_inj]
    | _ =>
      obtain ⟨cs, hcs, hwrite⟩ := appends_write_scalar rfl hsafe
      exact ⟨cs, .inl hcs, hwrite⟩

end

end Grammar

end Json

end JsonDoc

import JsonDoc.Proofs.Path.Normal

/-!
# `JsonDoc.Proofs.Path.Height`: how high the conditions of a path get

A reader counts the parentheses and connectives that it is inside of, and refuses a condition where
the count passes `maxConditionHeight`. The count is the nesting of the grammar. A chain of
connectives is grouped to the left, and its first operand is read before any of them is counted.
So the count bounds how often a way down the condition goes to the right
(`ConditionText.count_right_le`), and how often it goes to the left only through its square: a
condition of nesting `n` is at most `n * (n + 1)` high (`ConditionText.height_le`).

* `ways_of_compile`: which conditions of compiled paths are within the limit all the way down.
* `exists_nests_height_eq`: for each nesting there is a condition of the greatest height. Both
  chains of each level are as long as the nesting, with all levels below in their first operand.
-/

set_option autoImplicit false

namespace JsonDoc

/-- One of the operands of a connective. -/
inductive Side where
  | left
  | right
  deriving DecidableEq, Repr

/-- The ways from the top of a condition down to its tests, from left to right. -/
def Condition.ways : Condition → List (List Side)
  | compare .. => [[]]
  | present _ => [[]]
  | and left right => left.ways.map (.left :: ·) ++ right.ways.map (.right :: ·)
  | or left right => left.ways.map (.left :: ·) ++ right.ways.map (.right :: ·)

/-- A way down an `&&` is a turn and a way down the side that it turns to. -/
theorem Condition.forall_ways_and {left right : Condition} {P : List Side → Prop} :
    (∀ way ∈ (Condition.and left right).ways, P way) ↔
      (∀ way ∈ left.ways, P (.left :: way)) ∧ ∀ way ∈ right.ways, P (.right :: way) := by
  rw [ways, List.forall_mem_append, List.forall_mem_map, List.forall_mem_map]

/-- A way down an `||` is a turn and a way down the side that it turns to. -/
theorem Condition.forall_ways_or {left right : Condition} {P : List Side → Prop} :
    (∀ way ∈ (Condition.or left right).ways, P way) ↔
      (∀ way ∈ left.ways, P (.left :: way)) ∧ ∀ way ∈ right.ways, P (.right :: way) :=
  forall_ways_and

/-- Every condition has a test, and a way down to it. -/
theorem Condition.exists_mem_ways (condition : Condition) : ∃ way, way ∈ condition.ways := by
  induction condition with
  | compare => exact ⟨[], List.mem_cons_self⟩
  | present => exact ⟨[], List.mem_cons_self⟩
  | and left right ihl _ =>
    obtain ⟨way, mem⟩ := ihl
    exact ⟨.left :: way, List.mem_append_left _ (List.mem_map_of_mem mem)⟩
  | or left right ihl _ =>
    obtain ⟨way, mem⟩ := ihl
    exact ⟨.left :: way, List.mem_append_left _ (List.mem_map_of_mem mem)⟩

/-- The height of two joined conditions, by the ways down each. -/
theorem Condition.max_height_le_iff {left right : Condition} {n : Nat}
    (hl : ∀ n, left.height ≤ n ↔ ∀ way ∈ left.ways, way.length ≤ n)
    (hr : ∀ n, right.height ≤ n ↔ ∀ way ∈ right.ways, way.length ≤ n) :
    max left.height right.height + 1 ≤ n ↔
      (∀ way ∈ left.ways, (Side.left :: way).length ≤ n) ∧
        ∀ way ∈ right.ways, (Side.right :: way).length ≤ n := by
  cases n with
  | zero =>
    -- Every way down two joined conditions passes their connective.
    refine iff_of_false (Nat.not_succ_le_zero _) fun h => ?_
    obtain ⟨way, mem⟩ := left.exists_mem_ways
    exact Nat.not_succ_le_zero _ (h.1 way mem)
  | succ n => simp only [List.length_cons, Nat.add_le_add_iff_right, Nat.max_le, hl, hr]

/-- The height is the length of the longest way. -/
theorem Condition.height_le_iff {condition : Condition} {n : Nat} :
    condition.height ≤ n ↔ ∀ way ∈ condition.ways, way.length ≤ n := by
  induction condition generalizing n with
  | compare => simp [height, ways]
  | present => simp [height, ways]
  | and left right ihl ihr =>
    rw [forall_ways_and, height]
    exact max_height_le_iff (fun _ => ihl) (fun _ => ihr)
  | or left right ihl ihr =>
    rw [forall_ways_or, height]
    exact max_height_le_iff (fun _ => ihl) (fun _ => ihr)

/-- Turns to the right, in a condition made of a left side within `n` of them and a right side
within `m`. -/
theorem Side.count_right_cons_le {left right : List (List Side)} {n m most : Nat}
    (hl : ∀ way ∈ left, way.count .right ≤ n) (hr : ∀ way ∈ right, way.count .right ≤ m)
    (hn : n ≤ most) (hm : m + 1 ≤ most) :
    (∀ way ∈ left, (Side.left :: way).count .right ≤ most) ∧
      ∀ way ∈ right, (Side.right :: way).count .right ≤ most := by
  refine ⟨fun way mem => ?_, fun way mem => ?_⟩
  · rw [List.count_cons_of_ne (by decide)]
    exact Nat.le_trans (hl way mem) hn
  · rw [List.count_cons_self]
    exact Nat.le_trans (Nat.succ_le_succ (hr way mem)) hm

/-- Every turn of a way is to the left or to the right. -/
theorem Side.length_eq (way : List Side) :
    way.length = way.count .left + way.count .right := by
  induction way with
  | nil => rfl
  | cons side way ih => cases side <;> simp [ih] <;> omega

namespace Path.Grammar

/-! ### Bounds

With `t n` for the greatest height of a term of nesting `n`, a term in parentheses has a condition
in it whose first term may stand under `n` connectives of each kind: `t (n + 1) = t n + 2 * n`. So
`t n` is `n * n - n`, and a condition of nesting `n` is as high as a term of the next nesting.
-/

/-- `n * n - n` grows with `n`. -/
theorem mul_self_add_le {m n : Nat} (h : m ≤ n) : m * m + n ≤ n * n + m := by
  obtain ⟨d, rfl⟩ := Nat.exists_eq_add_of_le h
  have hd := Nat.le_mul_self d
  rw [Nat.add_mul, Nat.mul_add, Nat.mul_add]
  omega

section
variable {n k : Nat} {cs : List Char} {condition : Condition}

/-- A test is at the end of its only way. -/
theorem TestText.ways_eq (h : TestText cs condition) : condition.ways = [[]] := by
  cases h with
  | present => rfl
  | compare => rfl

/-- A test has no height. -/
theorem TestText.height_eq (h : TestText cs condition) : condition.height = 0 := by
  cases h with
  | present => rfl
  | compare => rfl

end

mutual

/-- A term is as high as what is in its parentheses, where the nesting is one less. -/
theorem TermText.height_add_le {n : Nat} {cs : List Char} {condition : Condition} :
    TermText n cs condition → condition.height + n ≤ n * n
  | .test htest => by rw [htest.height_eq]
  | @TermText.group n k _ _ _ _ _ hcondition _ => by
    have hheight := hcondition.height_le_add
    have hk := hcondition.connectives_le
    rw [Nat.mul_add_one, Nat.add_one_mul]
    omega

/-- Every connective of a conjunction puts the terms before it one level down. -/
theorem ConjunctionText.height_add_le {n k : Nat} {cs : List Char} {condition : Condition} :
    ConjunctionText n k cs condition → condition.height + n ≤ n * n + k
  | .term hterm => hterm.height_add_le
  | @ConjunctionText.and n k m _ _ _ _ left right hleft _ _ hright => by
    have hl := hleft.height_add_le
    have hr := hright.height_add_le
    -- Each side is within the bound for its own nesting, which is one of the whole at most.
    have hln := mul_self_add_le (Nat.le_max_left n (k + 1 + m))
    have hrn := mul_self_add_le (show m ≤ max n (k + 1 + m) by omega)
    rw [Condition.height]
    omega

/-- The first conjunction has as many connectives of its own as the nesting allows. -/
theorem ConditionText.height_le_add {n k : Nat} {cs : List Char} {condition : Condition} :
    ConditionText n k cs condition → condition.height ≤ n * n + k
  | .conjunction hconjunction => by
    have hheight := hconjunction.height_add_le
    have hj := hconjunction.connectives_le
    omega
  | @ConditionText.or n k m j _ _ _ _ left right hleft _ _ hright => by
    have hl := hleft.height_le_add
    have hr := hright.height_add_le
    -- What the connectives of the right side add is made up for by its nesting.
    have hj := hright.connectives_le
    have hln := Nat.mul_self_le_mul_self (Nat.le_max_left n (k + 1 + m))
    have hrn := Nat.mul_self_le_mul_self (show m ≤ max n (k + 1 + m) by omega)
    rw [Condition.height]
    omega

end

mutual

/-- No way down a term turns to the right more often than the term nests. -/
theorem TermText.count_right_le {n : Nat} {cs : List Char} {condition : Condition} :
    TermText n cs condition → ∀ way ∈ condition.ways, way.count .right ≤ n
  | .test htest => by simp [htest.ways_eq]
  | .group _ hcondition _ => fun way mem => Nat.le_succ_of_le (hcondition.count_right_le way mem)

/-- No way down a conjunction turns right more often than it nests, its right sides standing behind
one more connective. -/
theorem ConjunctionText.count_right_le {n k : Nat} {cs : List Char} {condition : Condition} :
    ConjunctionText n k cs condition → ∀ way ∈ condition.ways, way.count .right ≤ n
  | .term hterm => hterm.count_right_le
  | .and hleft _ _ hright => by
    refine Condition.forall_ways_and.2 ?_
    exact Side.count_right_cons_le hleft.count_right_le hright.count_right_le (by omega) (by omega)

/-- A connective counts for what is to its right. -/
theorem ConditionText.count_right_le {n k : Nat} {cs : List Char} {condition : Condition} :
    ConditionText n k cs condition → ∀ way ∈ condition.ways, way.count .right ≤ n
  | .conjunction hconjunction => hconjunction.count_right_le
  | .or hleft _ _ hright => by
    refine Condition.forall_ways_or.2 ?_
    exact Side.count_right_cons_le hleft.count_right_le hright.count_right_le (by omega) (by omega)

end

/-- A condition of nesting `n` is at most as high as the two chains at each of its levels allow. -/
theorem ConditionText.height_le {n k : Nat} {cs : List Char} {condition : Condition}
    (h : ConditionText n k cs condition) : condition.height ≤ n * (n + 1) := by
  have hheight := h.height_le_add
  have hk := h.connectives_le
  rw [Nat.mul_add_one]
  omega

/-! ### The conditions of a path -/

section
variable {n k : Nat} {cs more : List Char} {condition : Condition}

/-- The condition stands somewhere in the text, with a nesting within the limit. -/
def StandsIn (condition : Condition) (cs : List Char) : Prop :=
  ∃ n k ds, ConditionText n k ds condition ∧ n ≤ maxConditionHeight ∧ ds <:+: cs

/-- What stands in a part of a text stands in the text. -/
theorem StandsIn.mono (h : StandsIn condition cs) (hcs : cs <:+: more) :
    StandsIn condition more := by
  obtain ⟨n, k, ds, hcondition, within, hds⟩ := h
  exact ⟨n, k, ds, hcondition, within, hds.trans hcs⟩

/-- The condition of a filter stands in its bracket. -/
theorem BracketText.standsIn (h : BracketText cs (.filter condition)) : StandsIn condition cs := by
  obtain @⟨before, _, after, _, _, hselector, _⟩ := h
  cases hselector with
  | @filter n k blanks ds blanks' _ _ hcondition within _ =>
    refine ⟨n, k, ds, hcondition, within, ?_⟩
    exact ⟨'[' :: (before ++ '?' :: '(' :: blanks), blanks' ++ [')'] ++ after ++ [']'], by simp⟩

/-- The conditions of a segment stand in its text. -/
theorem SegmentText.standsIn {piece : List Segment} (h : SegmentText cs piece)
    (mem : .filter condition ∈ piece) : StandsIn condition cs := by
  -- A condition is neither a member nor a descent, so it stands in the bracket.
  cases h with
  | member hmember =>
    cases List.mem_singleton.1 mem
    cases hmember
  | bracket hbracket =>
    cases List.mem_singleton.1 mem
    exact hbracket.standsIn
  | descendMember hmember =>
    cases List.mem_singleton.1 ((List.mem_cons.1 mem).resolve_left Segment.noConfusion)
    cases hmember
  | descendBracket hbracket =>
    cases List.mem_singleton.1 ((List.mem_cons.1 mem).resolve_left Segment.noConfusion)
    exact hbracket.standsIn.mono ⟨['.', '.'], [], by simp⟩

/-- The conditions of several segments stand in the text of all of them. -/
theorem standsIn_of_mem_flatten {pieces : List (List Segment)}
    (h : SequenceText SegmentText cs pieces) (mem : .filter condition ∈ pieces.flatten) :
    StandsIn condition cs := by
  induction h with
  | nil => cases mem
  | @cons cs more piece pieces hpiece _ ih =>
    rw [List.flatten_cons, List.mem_append] at mem
    obtain hhere | hthere := mem
    · exact (hpiece.standsIn hhere).mono (List.prefix_append cs more).isInfix
    · exact (ih hthere).mono (List.suffix_append cs more).isInfix

/-- The conditions of a path stand in its text. -/
theorem PathText.standsIn {segments : List Segment} (h : PathText cs segments)
    (mem : .filter condition ∈ segments) : StandsIn condition cs := by
  cases h with
  | empty => cases mem
  | @rooted cs pieces hpieces =>
    exact (standsIn_of_mem_flatten hpieces mem).mono (List.suffix_cons '$' cs).isInfix

/-- The text of a path with nothing but a condition. -/
def filterText (cs : List Char) : String :=
  String.ofList ('$' :: '[' :: '?' :: '(' :: (cs ++ [')', ']']))

/-- A condition within the limit makes a path that compiles. -/
theorem compile_filterText (h : ConditionText n k cs condition) (within : n ≤ maxConditionHeight) :
    compile (filterText cs) = .ok ⟨filterText cs, [.filter condition]⟩ := by
  have hselector := SelectorText.filter blanks_nil h within blanks_nil
  have hbracket := BracketText.intro blanks_nil hselector blanks_nil
  have hpath := PathText.rooted (.cons (.bracket hbracket) .nil)
  refine compile_eq_ok_iff.2 ⟨rfl, ?_⟩
  rw [filterText, String.toList_ofList]
  simpa using hpath

end

/-! ### The highest conditions -/

/-- A condition and `k` more tests of the candidate behind it. -/
def chain (join : Condition → Condition → Condition) : (k : Nat) → Condition → Condition
  | 0, condition => condition
  | k + 1, condition => join (chain join k condition) (.present [])

/-- The text of a condition and of `k` more tests behind it. -/
def chainText (mark : Char) : (k : Nat) → List Char → List Char
  | 0, cs => cs
  | k + 1, cs => chainText mark k cs ++ [' '] ++ [mark, mark] ++ [' '] ++ ['@']

/-- Each test behind a condition lifts it by one. -/
theorem height_chain {join : Condition → Condition → Condition}
    (hjoin : ∀ left right, (join left right).height = max left.height right.height + 1) (k : Nat)
    (condition : Condition) : (chain join k condition).height = condition.height + k := by
  induction k with
  | zero => rfl
  | succ k ih =>
    rw [chain, hjoin, ih, show (Condition.present []).height = 0 from rfl]
    omega

/-- A term and `k` tests behind it make a conjunction; its nesting is `k` unless the term nests
deeper. -/
theorem conjunctionText_chain {n : Nat} {cs : List Char} {condition : Condition}
    (h : TermText n cs condition) (k : Nat) :
    ConjunctionText (max n k) k (chainText '&' k cs) (chain .and k condition) := by
  induction k with
  | zero =>
    rw [Nat.max_zero]
    exact .term h
  | succ k ih =>
    have hmore := ConjunctionText.and ih blanks_space blanks_space termText_candidate
    rwa [show max (max n k) (k + 1 + 0) = max n (k + 1) by omega] at hmore

/-- A conjunction and `k` tests behind `||` make a condition of the same kind. -/
theorem conditionText_chain {n j : Nat} {cs : List Char} {condition : Condition}
    (h : ConjunctionText n j cs condition) (k : Nat) :
    ConditionText (max n k) k (chainText '|' k cs) (chain .or k condition) := by
  induction k with
  | zero =>
    rw [Nat.max_zero]
    exact .conjunction h
  | succ k ih =>
    have hmore := ConditionText.or ih blanks_space blanks_space (.term termText_candidate)
    rwa [show max (max n k) (k + 1 + 0) = max n (k + 1) by omega] at hmore

/-- The text of a term of nesting `n` with chains as long as they can be at every level. -/
def widestTermText : (n : Nat) → List Char
  | 0 => ['@']
  | n + 1 => '(' :: (chainText '|' n (chainText '&' n (widestTermText n)) ++ [')'])

/-- The term of nesting `n` with chains as long as they can be at every level. -/
def widestTerm : (n : Nat) → Condition
  | 0 => .present []
  | n + 1 => chain .or n (chain .and n (widestTerm n))

/-- Both chains behind a term of nesting `n` can have `n` connectives. -/
theorem conditionText_widest {n : Nat} (h : TermText n (widestTermText n) (widestTerm n)) :
    ConditionText n n (chainText '|' n (chainText '&' n (widestTermText n)))
      (widestTerm (n + 1)) := by
  have hcondition := conditionText_chain (conjunctionText_chain h n) n
  rwa [Nat.max_self, Nat.max_self] at hcondition

/-- In parentheses the widest term of one nesting is part of that of the next. -/
theorem termText_widest (n : Nat) : TermText n (widestTermText n) (widestTerm n) := by
  induction n with
  | zero => exact termText_candidate
  | succ n ih =>
    have h := TermText.group blanks_nil (conditionText_widest ih) blanks_nil
    simpa [widestTermText] using h

/-- Each nesting adds two chains, so the heights grow as `n * (n + 1)`. -/
theorem height_widestTerm (n : Nat) : (widestTerm (n + 1)).height = n * (n + 1) := by
  induction n with
  | zero => rfl
  | succ n ih =>
    rw [widestTerm, height_chain (fun _ _ => rfl), height_chain (fun _ _ => rfl), ih,
      Nat.mul_add_one (n + 1), Nat.add_one_mul n]

/-! ### The limit -/

/-- The condition is one of the path, and has this nesting where it stands in the text. -/
def Nests (text : String) (nesting : Nat) (condition : Condition) : Prop :=
  ∃ path k cs, compile text = .ok path ∧ .filter condition ∈ path.segments ∧
    ConditionText nesting k cs condition ∧ cs <:+: text.toList

/-- The bound on heights holds of every condition of a path. -/
theorem Nests.height_le {text : String} {n : Nat} {condition : Condition}
    (h : Nests text n condition) : condition.height ≤ n * (n + 1) := by
  obtain ⟨path, k, cs, -, -, hcondition, -⟩ := h
  exact hcondition.height_le

/-- A condition can be met in a path with its own nesting. -/
theorem nests_filterText {n k : Nat} {cs : List Char} {condition : Condition}
    (h : ConditionText n k cs condition) (within : n ≤ maxConditionHeight) :
    Nests (filterText cs) n condition := by
  refine ⟨_, k, cs, compile_filterText h within, List.mem_cons_self, h, ?_⟩
  rw [filterText, String.toList_ofList]
  exact ⟨['$', '[', '?', '('], [')', ']'], by simp⟩

/-- For each nesting within the limit, a condition as high as its nesting allows. -/
theorem exists_nests_height_eq {n : Nat} (within : n ≤ maxConditionHeight) :
    ∃ text condition, Nests text n condition ∧ condition.height = n * (n + 1) := by
  have hcondition := conditionText_widest (termText_widest n)
  exact ⟨_, _, nests_filterText hcondition within, height_widestTerm n⟩

/-- Only a nesting of at most 9 keeps the height of all conditions within the limit. -/
theorem forall_nests_height_le_iff {n : Nat} (within : n ≤ maxConditionHeight) :
    (∀ text condition, Nests text n condition → condition.height ≤ maxConditionHeight) ↔
      n ≤ 9 := by
  constructor
  · intro h
    obtain ⟨text, condition, hnests, heq⟩ := exists_nests_height_eq within
    have hheight := h text condition hnests
    rw [heq, maxConditionHeight] at hheight
    -- From a nesting of 10 on the greatest height is past the limit.
    by_contra hn
    have hmul : 10 * 11 ≤ n * (n + 1) := Nat.mul_le_mul (by omega) (by omega)
    omega
  · intro hn text condition hnests
    have hmul : n * (n + 1) ≤ 9 * 10 := Nat.mul_le_mul hn (by omega)
    have hheight := hnests.height_le
    rw [maxConditionHeight]
    omega

/-- No way down a condition of a path goes to the right more often than the limit allows. So all
ways are within the limit exactly if none goes to the left more often than its turns to the right
leave room for; a nesting of at most 9 ensures it, and what is ensured for a nesting of `n` is a
height of `n * (n + 1)`. -/
theorem ways_of_compile {text : String} {path : Path} {condition : Condition}
    (h : compile text = .ok path) (mem : .filter condition ∈ path.segments) :
    ((∀ way ∈ condition.ways, way.length ≤ maxConditionHeight) ↔
        ∀ way ∈ condition.ways, way.count .left ≤ maxConditionHeight - way.count .right) ∧
      (∀ way ∈ condition.ways, way.count .right ≤ maxConditionHeight) ∧
      ∃ n ≤ maxConditionHeight, Nests text n condition ∧
        (∀ way ∈ condition.ways, way.length ≤ n * (n + 1)) ∧
        (n ≤ 9 → ∀ way ∈ condition.ways, way.length ≤ maxConditionHeight) := by
  obtain ⟨n, k, cs, hcondition, within, hcs⟩ := (compile_eq_ok_iff.1 h).2.standsIn mem
  have hnests : Nests text n condition := ⟨path, k, cs, h, mem, hcondition, hcs⟩
  have hright : ∀ way ∈ condition.ways, way.count .right ≤ maxConditionHeight :=
    fun way hway => Nat.le_trans (hcondition.count_right_le way hway) within
  refine ⟨forall₂_congr fun way hway => ?_, hright, n, within, hnests, ?_, fun hn => ?_⟩
  · -- The turns to the right are within the limit, so that the difference is a true one.
    have hlength := Side.length_eq way
    have hcount := hright way hway
    omega
  · exact Condition.height_le_iff.1 hnests.height_le
  · exact Condition.height_le_iff.1 ((forall_nests_height_le_iff within).2 hn text _ hnests)

/-- A path with a hundred `&&` and one `||` in its condition. -/
def tallText : String := "$[?(@" ++ String.join (List.replicate 100 " && @") ++ " || @)]"

/-- The tall text compiles: its nesting is that of the hundred `&&`, and the `||` does not add to
it. -/
theorem compile_tallText :
    compile tallText = .ok ⟨tallText, [.filter (chain .or 1 (chain .and 100 (.present [])))]⟩ := by
  have htext : tallText = filterText (chainText '|' 1 (chainText '&' 100 ['@'])) := by
    decide +kernel
  have hcondition := conditionText_chain (conjunctionText_chain termText_candidate 100) 1
  rw [htext]
  exact compile_filterText hcondition (by decide)

/-- The ways down the condition go to the right once at most, and one goes to the left too
often. -/
theorem ways_of_compile_tallText :
    ∃ path condition, compile tallText = .ok path ∧ .filter condition ∈ path.segments ∧
      (∀ way ∈ condition.ways, way.count .right ≤ maxConditionHeight) ∧
      ∃ n ≤ maxConditionHeight, Nests tallText n condition ∧
        ∀ way ∈ condition.ways, way.length ≤ n * (n + 1) := by
  obtain ⟨-, hright, n, within, hnests, hlength, -⟩ :=
    ways_of_compile compile_tallText List.mem_cons_self
  exact ⟨_, _, compile_tallText, List.mem_cons_self, hright, n, within, hnests, hlength⟩

/-- The candidate at the front of the two chains stands under all of their 101 connectives. -/
theorem exists_way_gt :
    ∃ path condition way, compile tallText = .ok path ∧ .filter condition ∈ path.segments ∧
      way ∈ condition.ways ∧ maxConditionHeight < way.length := by
  have hheight : ¬(chain .or 1 (chain .and 100 (.present []))).height ≤ maxConditionHeight := by
    rw [height_chain (fun _ _ => rfl), height_chain (fun _ _ => rfl)]
    decide
  rw [Condition.height_le_iff] at hheight
  push Not at hheight
  obtain ⟨way, mem, hlength⟩ := hheight
  exact ⟨_, _, way, compile_tallText, List.mem_cons_self, mem, hlength⟩

end Path.Grammar

end JsonDoc

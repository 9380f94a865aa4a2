import JsonDoc.Json.Document
import JsonDoc.Proofs.Number.Rational
import JsonDoc.Proofs.Value.Pointwise

/-!
# `JsonDoc.Proofs.Value.PlainZeros`: documents without signs of zeros

A zero may have a sign, which its digits do not show. `Value.plainZeros` is the document in which no
zero has one; it is pointwise, and `==` does not tell it from the document itself.

An integer of double precision is the number nearest to that integer, but for the sign of a zero
(`Binary64.ofInt_of_toInt?`). `Value.SafeIntegers` are the documents in which all numbers are
integers that are written in digits.
-/

set_option autoImplicit false

namespace JsonDoc

open Number

namespace Number.Binary64

/-- The number, without the sign of a zero. -/
def plainZero (x : Binary64) : Binary64 := if x.isZero then zero else x

/-- Both zeros become the positive one. -/
theorem plainZero_of_zero {negative : Bool} {rank : Rank} (h : rank.val = 0) :
    (finite negative rank).plainZero = zero := by
  rw [plainZero, isZero, h]
  rfl

/-- Every other number stays as it is. -/
theorem plainZero_of_ne_zero {negative : Bool} {rank : Rank} (h : rank.val ≠ 0) :
    (finite negative rank).plainZero = finite negative rank := by
  rw [plainZero, isZero, if_neg (by simpa using h)]

/-- An integer is the number nearest to itself, but for the sign of a zero. -/
theorem ofInt_of_toInt? {x : Binary64} {n : Int} (h : x.toInt? = some n) :
    ofInt n = x.plainZero := by
  cases x with
  | finite negative rank =>
    obtain ⟨whole, hunits, rfl⟩ := exists_whole_of_toInt? h
    have hrank := binary64.nearestRank_whole hunits
    rcases Nat.eq_zero_or_pos whole with rfl | hpos
    · have hzero : (if negative then -((0 : Nat) : Int) else (0 : Nat)) = 0 := by
        cases negative <;> rfl
      rw [Format.nearestRank_zero] at hrank
      rw [plainZero_of_zero hrank.symm, hzero, ofInt, ofRatio, Int.natAbs_zero,
        Format.nearestRank_zero]
      rfl
    · have habs : (if negative then -(whole : Int) else whole).natAbs = whole := by
        cases negative <;> simp
      have hsign : decide ((if negative then -(whole : Int) else whole) < 0) = negative := by
        cases negative
        · simp
        · simpa using hpos
      -- Only the zeros have a magnitude of no units.
      have hne : rank.val ≠ 0 := by
        intro hzero
        rw [hzero, Format.units_zero] at hunits
        exact absurd hunits (Nat.ne_of_lt (Nat.mul_pos hpos (Nat.two_pow_pos _)))
      rw [plainZero_of_ne_zero hne, ofInt, hsign, habs, ofRatio, hrank, ofRank_val]
  | _ => cases h

/-- A number is equal to itself without the sign of its zero. -/
theorem equals_plainZero {x : Binary64} {n : Int} (h : x.toInt? = some n) :
    x.plainZero.equals x = true := by
  rw [equals_iff]
  cases x with
  | finite negative rank =>
    rcases Decidable.em (rank.val = 0) with hzero | hzero
    · rw [plainZero_of_zero hzero, position?, hzero]
      cases negative <;> exact ⟨0, rfl, rfl⟩
    · rw [plainZero_of_ne_zero hzero]
      exact ⟨_, rfl, rfl⟩
  | _ => cases h

/-- A signed whole number has one magnitude, and one sign unless it is zero. -/
theorem signed_inj {negative negative' : Bool} {m m' : Nat}
    (h : (if negative then -(m : Int) else m) = if negative' then -(m' : Int) else m') :
    m = m' ∧ (m = 0 ∨ negative = negative') := by
  cases negative <;> cases negative' <;>
    simp only [if_true, if_false, Bool.false_eq_true, reduceCtorEq, eq_self, or_true,
      or_false, and_true] at h ⊢ <;>
    omega

/-- Equal numbers differ at most in the sign of a zero. -/
theorem plainZero_eq_of_equals {x y : Binary64} (h : x.equals y = true) :
    x.plainZero = y.plainZero := by
  obtain ⟨place, hx, hy⟩ := equals_iff.1 h
  have hplace : x.position? = y.position? := hx.trans hy.symm
  cases x with
  | nan => cases hx
  | infinite negative =>
    cases y with
    | nan => cases hy
    | infinite negative' =>
      obtain ⟨-, hzero | rfl⟩ := signed_inj (Option.some.inj hplace)
      · exact absurd hzero (by decide)
      · rfl
    | finite negative' rank =>
      exact absurd (signed_inj (Option.some.inj hplace)).1.symm (Nat.ne_of_lt rank.isLt)
  | finite negative rank =>
    cases y with
    | nan => cases hy
    | infinite negative' =>
      exact absurd (signed_inj (Option.some.inj hplace)).1 (Nat.ne_of_lt rank.isLt)
    | finite negative' rank' =>
      -- Equal numbers have one magnitude, and one sign unless they are zeros.
      obtain ⟨hrank, hzero | rfl⟩ := signed_inj (Option.some.inj hplace)
      · rw [plainZero_of_zero hzero, plainZero_of_zero (hrank ▸ hzero)]
      · rw [Fin.ext hrank]

end Number.Binary64

/-! ### Integers that are written in digits -/

/-- The largest of them is a number of double precision. -/
theorem toRat?_maxSafeInteger :
    (Binary64.ofInt maxSafeInteger).toRat? = some (((maxSafeInteger : Nat) : Int) : ℚ) :=
  Binary64.toInt?_eq_some_iff.1 (by decide +kernel)

/-- The test on the magnitude of a whole number is one on the integer. -/
theorem abs_atMost_maxSafeInteger {x : Binary64} {n : Int} (h : x.toInt? = some n) :
    x.abs.atMost (.ofInt maxSafeInteger) = true ↔ n.natAbs ≤ maxSafeInteger := by
  rw [Binary64.atMost_iff (Binary64.toRat?_abs (Binary64.toInt?_eq_some_iff.1 h))
    toRat?_maxSafeInteger, ← Int.cast_abs, Int.cast_le, ← Int.natCast_natAbs, Nat.cast_le]

/-- A number is written in digits if it is an integer of at most `maxSafeInteger`. -/
theorem safeInteger?_eq_some_iff {x : Binary64} {n : Int} :
    safeInteger? x = some n ↔ x.toInt? = some n ∧ n.natAbs ≤ maxSafeInteger := by
  have hcut (m : Int) (hm : x.toInt? = some m) (hle : m.natAbs ≤ maxSafeInteger) :
      x.toInt64 = m := by
    rw [maxSafeInteger] at hle
    exact Binary64.toInt64_of_toInt? hm (by omega) (by omega)
  constructor
  · intro h
    rw [safeInteger?, Option.ite_none_right_eq_some, Bool.and_eq_true, Binary64.isWhole_iff] at h
    obtain ⟨⟨⟨m, hm⟩, hle⟩, hn⟩ := h
    have hsafe := (abs_atMost_maxSafeInteger hm).1 hle
    rw [hcut m hm hsafe, Option.some.injEq] at hn
    exact hn ▸ ⟨hm, hsafe⟩
  · rintro ⟨hn, hsafe⟩
    rw [safeInteger?, Binary64.isWhole_iff.2 ⟨n, hn⟩, (abs_atMost_maxSafeInteger hn).2 hsafe,
      hcut n hn hsafe]
    rfl

/-! ### Documents -/

namespace Value

mutual

/-- The document, with zeros without a sign. -/
def plainZeros : Value → Value
  | number x => number x.plainZero
  | array items => array (plainZeroItems items)
  | object members => object (plainZeroMembers members)
  | v => v

/-- The items, with zeros without a sign. -/
def plainZeroItems : List Value → List Value
  | [] => []
  | item :: rest => plainZeros item :: plainZeroItems rest

/-- The members, with zeros without a sign. -/
def plainZeroMembers : List (String × Value) → List (String × Value)
  | [] => []
  | (key, item) :: rest => (key, plainZeros item) :: plainZeroMembers rest

end

/-- The recursion over the items is a map. -/
theorem plainZeroItems_eq_map (items : List Value) :
    plainZeroItems items = items.map plainZeros := by
  induction items with
  | nil => rfl
  | cons item rest ih => rw [plainZeroItems, ih, List.map_cons]

/-- The recursion over the members is a map on their values. -/
theorem plainZeroMembers_eq_map (members : List (String × Value)) :
    plainZeroMembers members = members.map fun m => (m.1, m.2.plainZeros) := by
  induction members with
  | nil => rfl
  | cons m rest ih => rw [plainZeroMembers, ih, List.map_cons]

/-- Zeros do not occur in keys. -/
theorem keys_plainZeroMembers (members : List (String × Value)) :
    Members.keys (plainZeroMembers members) = Members.keys members := by
  rw [plainZeroMembers_eq_map, Members.keys, List.map_map]
  rfl

/-- What happens to zeros happens node by node, and leaves every key and place. -/
theorem pointwise_plainZeros : Pointwise plainZeros := by
  refine pointwise_of_parts (fun v => ?_) (fun items => ?_) fun members => ?_
  · cases v <;> rfl
  · rw [plainZeros, plainZeroItems_eq_map]
  · exact ⟨_, rfl, .of_eq (plainZeroMembers_eq_map members)⟩

/-- Every number of the document is an integer that is written in digits. -/
def SafeIntegers (v : Value) : Prop :=
  ∀ location x, v.at? location = some (.number x) →
    ∃ n, x.toInt? = some n ∧ n.natAbs ≤ maxSafeInteger

/-- A value has numbers that are written as integers if it is such a number or no number, and its
children have. -/
theorem safeIntegers_of_children {v : Value}
    (h : ∀ x, v = .number x → ∃ n, x.toInt? = some n ∧ n.natAbs ≤ maxSafeInteger)
    (hchildren : ∀ child ∈ v.children, child.SafeIntegers) : v.SafeIntegers := by
  intro location x hx
  cases location with
  | nil => exact h x (Option.some.inj hx)
  | cons step location =>
    obtain ⟨child, hchild, hx⟩ := Option.bind_eq_some_iff.1 hx
    exact hchildren child (mem_children_of_child? hchild) location x hx

/-- The numbers of a child are numbers of the value. -/
theorem SafeIntegers.of_mem_children {v child : Value} (h : v.SafeIntegers) (hv : v.WellFormed)
    (mem : child ∈ v.children) : child.SafeIntegers := by
  obtain ⟨step, hchild⟩ := exists_child?_of_mem_children hv.stepsDiffer mem
  intro location x hx
  exact h (step :: location) x (by rw [at?_cons_of_child? hchild, hx])

end Value

end JsonDoc

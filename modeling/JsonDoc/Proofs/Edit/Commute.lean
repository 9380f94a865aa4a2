import JsonDoc.Path.Parser
import JsonDoc.Proofs.Edit.FanOut
import JsonDoc.Proofs.Edit.Lens
import JsonDoc.Proofs.Value.Counterparts

/-!
# `JsonDoc.Proofs.Edit.Commute`: assignments in different places commute

Members and items counted from the front lead to one location, whatever the document. An
assignment along them that succeeds plants the value there (`assign_eq_plant`), and makes what is
missing on the way: `Value.plant` is that operation, and `Value.Bears` says that nothing on the way
is in its way.

Two values planted at locations of which neither lies below the other do not meet. Up to where the
locations part both go through the same containers, and there the one is put beside the other. So
it does not matter which was planted first, except for the order in which members were made
(`Value.plant_comm`); the nulls with which an array is lengthened are there in either order.
-/

set_option autoImplicit false

namespace JsonDoc

namespace Value

variable {v w child other : Value} {step found : Step}

/-- The child under a step, and a null where there is none. -/
def childOrNull (v : Value) (step : Step) : Value := (v.child? step).getD null

/-- Where there is a child it is that one. -/
theorem childOrNull_of_child? (h : v.child? step = some child) : v.childOrNull step = child := by
  rw [childOrNull, h, Option.getD_some]

/-- The child that was put in is there. -/
theorem childOrNull_putChild (h : v.Takes step) (child : Value) :
    (v.putChild step child).childOrNull step = child :=
  childOrNull_of_child? (child?_putChild h child)

/-- A child put elsewhere is not seen, nor are the nulls that an array is lengthened with. -/
theorem childOrNull_putChild_of_ne (h : v.Takes step) (hne : found ≠ step) (child : Value) :
    (v.putChild step child).childOrNull found = v.childOrNull found := by
  rw [childOrNull, childOrNull, child?_putChild_eq h, if_neg hne]
  cases v.child? found with
  | some old => rfl
  | none => cases found.precedes step <;> rfl

/-! ### Planting -/

/-- The value with `new` at the location; what is missing on the way there is made. -/
def plant (v : Value) (location : Location) (new : Value) : Value :=
  match location with
  | [] => new
  | step :: rest => v.putChild step ((v.childOrNull step).plant rest new)

/-- On the way to the location each node can have a child where the next step leads. -/
def Bears (v : Value) : Location → Prop
  | [] => True
  | step :: rest => v.Takes step ∧ (v.childOrNull step).Bears rest

/-- Children put under different steps, in either order. -/
theorem reordered_putChild_putChild (hne : step ≠ found) (hstep : v.Takes step)
    (hfound : v.Takes found) (hthen : (v.putChild step child).Takes found)
    (hthen' : (v.putChild found other).Takes step) :
    ((v.putChild step child).putChild found other).Reordered
      ((v.putChild found other).putChild step child) := by
  refine alike_iff.2 ⟨?_, fun place => ?_⟩
  · -- A value that takes both steps is, or becomes, a container of one kind.
    have hkind : step.container = found.container := by
      have hkind := kind_putChild_of_takes hstep child
      rw [Takes.eq_def] at hthen
      split at hthen
      · next hobject => rw [← hkind, hobject]; rfl
      · next harray => rw [← hkind, harray]; rfl
      · next hnull =>
        rw [hnull] at hkind
        cases step <;> cases hkind
      · exact hthen.elim
    refine sameHead_of_kind ?_ ?_
    · rw [kind_putChild_of_takes hthen, kind_putChild_of_takes hthen', hkind]
    · rw [kind_putChild_of_takes hthen]
      cases found <;> simp [Step.container]
  · -- Where a step leads depends on its place among the two, not on which was put first.
    have heq : ((v.putChild step child).putChild found other).child? place
        = ((v.putChild found other).putChild step child).child? place := by
      rw [child?_putChild_eq hthen, child?_putChild_eq hstep, child?_putChild_eq hthen',
        child?_putChild_eq hfound]
      by_cases hp : place = found
      · subst hp
        rw [if_pos rfl, if_neg (Ne.symm hne), if_pos rfl, Option.some_or]
      · by_cases hp' : place = step
        · subst hp'
          rw [if_neg hp, if_pos rfl, if_pos rfl, Option.some_or]
        · rw [if_neg hp, if_neg hp', if_neg hp', if_neg hp]
          cases v.child? place <;> cases place.precedes step <;> cases place.precedes found <;> rfl
    rw [heq]
    cases ((v.putChild found other).putChild step child).child? place with
    | none => exact .none
    | some w => exact .some (alike_refl (fun _ => rfl) w)

/-- Where two locations part, neither lies below the other. -/
theorem plant_comm {v x y : Value} {location other : Location} (hpre : ¬location <+: other)
    (hpre' : ¬other <+: location) (hbears : v.Bears location) (hbears' : v.Bears other)
    (hthen : (v.plant location x).Bears other) (hthen' : (v.plant other y).Bears location) :
    ((v.plant location x).plant other y).Reordered ((v.plant other y).plant location x) := by
  induction location generalizing v other with
  | nil => exact absurd List.nil_prefix hpre
  | cons step rest ih =>
    cases other with
    | nil => exact absurd List.nil_prefix hpre'
    | cons found below =>
      obtain ⟨hstep, hrest⟩ := hbears
      obtain ⟨hfound, hbelow⟩ := hbears'
      obtain ⟨hputfound, hputbelow⟩ := hthen
      obtain ⟨hputstep, hputrest⟩ := hthen'
      rw [plant] at hputfound hputbelow hputstep hputrest
      rw [plant, plant, plant, plant]
      -- The ways go on together for one more step, or part here.
      by_cases heq : step = found
      · subst heq
        rw [List.prefix_cons_inj] at hpre hpre'
        rw [childOrNull_putChild hstep] at hputbelow hputrest
        rw [childOrNull_putChild hstep, childOrNull_putChild hstep]
        rw [putChild_putChild hstep, putChild_putChild hstep]
        exact (alike_refl (fun _ => rfl) v).putChild hstep
          (ih hpre hpre' hrest hbelow hputbelow hputrest)
      · rw [childOrNull_putChild_of_ne hstep (Ne.symm heq), childOrNull_putChild_of_ne hfound heq]
        exact reordered_putChild_putChild heq hstep hfound hputfound hputstep

end Value

/-! ### Assignments along members and items -/

/-- The segment made of a step leads along that step only. -/
theorem eq_of_choose_segment {step found : Step} {v child : Value}
    (h : step.segment.choose v = [(found, child)]) : found = step := by
  obtain ⟨name, hname, rfl, -⟩ | ⟨i, items, place, hindex, -, rfl, hplace, -⟩ :=
    cases_of_choose (single_segment step) h
  · cases step <;> cases hname
    rfl
  · cases step with
    | key => cases hindex
    | item n =>
      cases hindex
      rw [resolveIndex, if_pos (Int.natCast_nonneg n), Int.toNat_natCast] at hplace
      cases hplace
      rfl

/-- An assignment along members and items counted from the front that reaches its node. -/
theorem assign_eq_plant {limits : Limits} {new v : Value} {location : Location}
    (h : (assign limits new (location.map Step.segment) v).any) :
    (assign limits new (location.map Step.segment) v).value = v.plant location new ∧
      v.Bears location := by
  induction location generalizing v with
  | nil => exact ⟨rfl, trivial⟩
  | cons step rest ih =>
    rw [List.map_cons] at h ⊢
    cases Segment.entry (single_segment step) limits (rest.map Step.segment) v with
    | closed outcome idle none eq =>
      rw [eq, idle.any_eq_false] at h
      cases h
    | present found child here eq =>
      obtain rfl := eq_of_choose_segment here
      have hchild := child?_of_choose (single_segment found) here
      rw [eq, Edited.any_mk_outcome] at h
      obtain ⟨hvalue, hbears⟩ := ih h
      rw [eq, Value.plant, Value.Bears, Value.childOrNull_of_child? hchild, hvalue]
      exact ⟨rfl, Value.takes_of_child? hchild, hbears⟩
    | missing found none absent takes reaches eq =>
      obtain rfl := eq_of_choose_segment (reaches .null)
      -- The child that is made starts out as a null, as it does in a plant.
      have hnull : v.childOrNull found = .null := by rw [Value.childOrNull, absent]; rfl
      rw [eq, Edited.any_mk_outcome] at h
      obtain ⟨hvalue, hbears⟩ := ih h
      rw [eq, Value.plant, Value.Bears, hnull, hvalue]
      dsimp only
      rw [if_pos h]
      exact ⟨rfl, takes, hbears⟩

/-- Segments that are members or items counted from the front come from one location. -/
theorem exists_location {segments : List Segment}
    (h : ∀ segment ∈ segments, (∃ name, segment = .property name) ∨
      ∃ place : Nat, segment = .index place) :
    ∃ location : Location, segments = location.map Step.segment := by
  induction segments with
  | nil => exact ⟨[], rfl⟩
  | cons segment rest ih =>
    obtain ⟨hsegment, hrest⟩ := List.forall_mem_cons.1 h
    obtain ⟨location, rfl⟩ := ih hrest
    obtain ⟨name, rfl⟩ | ⟨place, rfl⟩ := hsegment
    · exact ⟨.key name :: location, rfl⟩
    · exact ⟨.item place :: location, rfl⟩

/-- A call that succeeds along members and indices from the front plants the value at the location,
and every node on the way can have the child. -/
theorem Path.eq_plant_of_set {path : Path} {limits : Limits} {root new left : Value}
    {location : Location} (hpath : path.segments = location.map Step.segment)
    (h : path.set limits root new = ⟨left, .ok ()⟩) :
    left = root.plant location new ∧ root.Bears location := by
  obtain ⟨-, -, rfl, n, hn⟩ := Path.exists_assign_of_set h
  rw [hpath] at hn ⊢
  refine assign_eq_plant ?_
  rw [Edited.any_of_ok hn, decide_eq_true (Nat.succ_pos n)]

/-- Assigning along two paths of members and items counted from the front, of which neither is the
beginning of the other: if it succeeds in both orders, both orders leave the same document, up to
the order of members. -/
theorem Path.set_comm {p q : Path} {limits : Limits} {root v w a ab b ba : Value}
    (hp : ∀ segment ∈ p.segments, (∃ name, segment = .property name) ∨
      ∃ place : Nat, segment = .index place)
    (hq : ∀ segment ∈ q.segments, (∃ name, segment = .property name) ∨
      ∃ place : Nat, segment = .index place)
    (hpq : ¬p.segments <+: q.segments) (hqp : ¬q.segments <+: p.segments)
    (ha : p.set limits root v = ⟨a, .ok ()⟩) (hab : q.set limits a w = ⟨ab, .ok ()⟩)
    (hb : q.set limits root w = ⟨b, .ok ()⟩) (hba : p.set limits b v = ⟨ba, .ok ()⟩) :
    ab.Reordered ba := by
  obtain ⟨location, hlocation⟩ := exists_location hp
  obtain ⟨other, hother⟩ := exists_location hq
  obtain ⟨rfl, hbears⟩ := Path.eq_plant_of_set hlocation ha
  obtain ⟨rfl, hthen⟩ := Path.eq_plant_of_set hother hab
  obtain ⟨rfl, hbears'⟩ := Path.eq_plant_of_set hother hb
  obtain ⟨rfl, hthen'⟩ := Path.eq_plant_of_set hlocation hba
  rw [hlocation, hother] at hpq hqp
  exact Value.plant_comm (fun h => hpq (h.map Step.segment)) (fun h => hqp (h.map Step.segment))
    hbears hbears' hthen hthen'

/-- The containers are made by whichever assignment comes first, and the members of the last one
stand in the order in which they were made. -/
theorem Path.set_comm_members :
    ∃ p q : Path, ∃ ab ba : Value, Path.compile "$.a[1].x" = .ok p ∧
      Path.compile "$.a[1].y" = .ok q ∧
      q.set ⟨8, 8, 16⟩ (p.set ⟨8, 8, 16⟩ (.object []) (.bool true)).value (.bool false) =
        ⟨ab, .ok ()⟩ ∧
      p.set ⟨8, 8, 16⟩ (q.set ⟨8, 8, 16⟩ (.object []) (.bool false)).value (.bool true) =
        ⟨ba, .ok ()⟩ ∧
      ab ≠ ba ∧ ab.Reordered ba := by
  let p : Path := ⟨"$.a[1].x", [.property "a", .index 1, .property "x"]⟩
  let q : Path := ⟨"$.a[1].y", [.property "a", .index 1, .property "y"]⟩
  let ab : Value := .object
    [("a", .array [.null, .object [("x", .bool true), ("y", .bool false)]])]
  let ba : Value := .object
    [("a", .array [.null, .object [("y", .bool false), ("x", .bool true)]])]
  have hsegments (name : String) : ∀ segment ∈ [.property "a", .index 1, .property name],
      (∃ name, segment = Segment.property name) ∨ ∃ place : Nat, segment = .index place := by
    rw [List.forall_mem_cons, List.forall_mem_cons, List.forall_mem_singleton]
    exact ⟨.inl ⟨"a", rfl⟩, .inr ⟨1, rfl⟩, .inl ⟨name, rfl⟩⟩
  have hp : Path.compile "$.a[1].x" = .ok p := by decide +kernel
  have hq : Path.compile "$.a[1].y" = .ok q := by decide +kernel
  refine ⟨p, q, ab, ba, hp, hq, rfl, rfl, by simp [ab, ba], ?_⟩
  exact Path.set_comm (hsegments "x") (hsegments "y") (by simp [p, q]) (by simp [p, q])
    (show p.set ⟨8, 8, 16⟩ (.object []) (.bool true) = ⟨_, .ok ()⟩ from rfl) rfl
    (show q.set ⟨8, 8, 16⟩ (.object []) (.bool false) = ⟨_, .ok ()⟩ from rfl) rfl

end JsonDoc

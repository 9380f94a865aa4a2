import JsonDoc.Proofs.Remove.Removal
import JsonDoc.Proofs.Select.Address

/-!
# `JsonDoc.Proofs.Remove.Exact`: removing what was addressed

Reading finds its locations in one document. A removal does not: behind a descent it comes to one
node after the other, each time to a document from which parts are gone already, and asks the
segments behind the descent where they lead there.

`Steady` says that these questions get the answers that they would have got at first: at each node
that a descent comes to, taking out where the segments lead in what is left of it comes to the
same as taking out, from the start, where they led in it as it was. Then a removal takes out just
the locations that the segments led to before it began (`Removal.left_eq_without`).
-/

set_option autoImplicit false

namespace JsonDoc

/-! ### Locations, child by child -/

section
variable {segment : Segment} {rest : List Segment} {v : Value} {node : Step × Value}

/-- Among the children, a step names one. -/
theorem any_childNodes (differ : v.StepsDiffer) (mem : node ∈ v.childNodes)
    (p : Step × Value → Bool) :
    (v.childNodes.any fun other => decide (other.1 = node.1) && p other) = p node := by
  rw [Bool.eq_iff_iff, List.any_eq_true]
  constructor
  · rintro ⟨other, hother, h⟩
    rw [Bool.and_eq_true, decide_eq_true_eq] at h
    rw [← List.inj_on_of_nodup_map differ hother mem h.1]
    exact h.2
  · intro h
    exact ⟨node, mem, by simpa using h⟩

/-- Below one child, a segment that is not a descent addresses what the rest addresses from that
child on, if it takes the child. The steps differ, so that no other child counts. -/
theorem addressed_cons_childNode (h : segment ≠ .descent) (differ : v.StepsDiffer)
    (mem : node ∈ v.childNodes) (location : Location) :
    addressed (segment :: rest) v (node.1 :: location)
      = (segment.takes v node && addressed rest node.2 location) := by
  rw [addressed_cons_cons h, choose_eq_filter segment differ, List.any_filter,
    ← any_childNodes differ mem fun node => segment.takes v node && addressed rest node.2 location]
  congr 1
  funext other
  exact Bool.and_left_comm _ _ _

/-- Below one child, a descent addresses what the rest addresses from the node on and what the
descent addresses from that child on. -/
theorem addressed_descent_childNode (differ : v.StepsDiffer) (mem : node ∈ v.childNodes)
    (location : Location) :
    addressed (.descent :: rest) v (node.1 :: location)
      = (addressed rest v (node.1 :: location)
          || addressed (.descent :: rest) node.2 location) := by
  rw [addressed, addressedBelow, any_childNodes differ mem fun node =>
    addressedBelow (addressed rest) node.2 location]
  rfl

/-- A value is not below itself. -/
theorem LeadsBelow.addressed_nil {segments : List Segment} (h : LeadsBelow segments) :
    addressed segments v [] = false := by
  induction segments with
  | nil => exact absurd h id
  | cons segment rest ih =>
    by_cases hsegment : segment = .descent
    · subst hsegment
      cases rest with
      | nil => exact absurd rfl h
      | cons next rest => exact ih h
    · exact addressed_cons_nil hsegment

end

/-! ### Steady removals -/

/-- What is gone once the locations that the segments lead to have been taken out as well. -/
def goneAfter (segments : List Segment) (gone : Location → Bool) (v : Value)
    (location : Location) : Bool :=
  gone location || addressed segments v location

/-- A descent comes to the value when some of its parts are gone. Taking out where `rest` leads to
in what is left of it comes to the same as taking out, at once, what was gone and where `rest` led
to in the value as it was; and so it is at each child that is left then. The value that is left
satisfies `inner`. -/
inductive SteadyBelow (rest : List Segment) (inner : Value → Prop) :
    (gone : Location → Bool) → Value → Prop where
  | intro {gone : Location → Bool} {v : Value} : inner (v.without gone) →
      (v.without gone).without (addressed rest (v.without gone))
        = v.without (goneAfter rest gone v) →
      (∀ node ∈ v.childNodes, goneAfter rest gone v [node.1] = false →
        SteadyBelow rest inner (Value.goneBelow (goneAfter rest gone v) node.1) node.2) →
      SteadyBelow rest inner gone v

/-- A removal along the segments takes out, at each node that one of their descents comes to, what
it would have taken out before the descent began. -/
def Steady : List Segment → Value → Prop
  | [], _ => True
  | .descent :: rest, v => SteadyBelow rest (Steady rest) (fun _ => false) v
  | segment :: rest, v => ∀ node ∈ segment.choose v, Steady rest node.2

/-- A segment that is not a descent is steady if the rest is below every child that it chooses. -/
theorem steady_cons {segment : Segment} (h : segment ≠ .descent) (rest : List Segment) (v : Value) :
    Steady (segment :: rest) v ↔ ∀ node ∈ segment.choose v, Steady rest node.2 := by
  cases segment with
  | descent => exact absurd rfl h
  | _ => rfl

/-! ### Removals as one cut -/

section
variable {segment : Segment} {rest : List Segment} {v : Value}

/-- The last segment takes out the locations that it leads to. -/
theorem revise_eq_without (h : segment ≠ .descent) (differ : v.StepsDiffer) :
    segment.revise (fun _ => none) v = v.without (addressed [segment] v) := by
  rw [Value.without_eq]
  refine Value.revise_congr fun node mem => ?_
  rw [addressed_cons_childNode h differ mem]
  cases htakes : segment.takes v node with
  | true => rfl
  | false =>
    refine congrArg some (Value.without_eq_self fun step location => ?_).symm
    rw [Value.goneBelow, addressed_cons_childNode h differ mem, htakes]
    rfl

/-- A segment in front takes out what is taken out of the children that it leads to. -/
theorem revise_eq_without_of_choose (h : segment ≠ .descent) (below : LeadsBelow rest)
    (differ : v.StepsDiffer) {left : Value → Value}
    (hleft : ∀ node ∈ segment.choose v, left node.2 = node.2.without (addressed rest node.2)) :
    segment.revise (fun child => some (left child)) v
      = v.without (addressed (segment :: rest) v) := by
  rw [Value.without_eq]
  refine Value.revise_congr fun node mem => ?_
  have hbelow : Value.goneBelow (addressed (segment :: rest) v) node.1
      = fun location => segment.takes v node && addressed rest node.2 location :=
    funext fun location => addressed_cons_childNode h differ mem location
  rw [addressed_cons_childNode h differ mem, below.addressed_nil, Bool.and_false, hbelow]
  cases htakes : segment.takes v node with
  | true =>
    have hnode := hleft node ((mem_choose differ).2 ⟨mem, htakes⟩)
    simp [hnode]
  | false =>
    have hself : node.2.without (fun _ => false) = node.2 := Value.without_eq_self fun _ _ => rfl
    simp [hself]

/-- Taking out at a node, and then below it in what is left. -/
theorem withChildren_eq_without (differ : v.StepsDiffer) (below : LeadsBelow rest)
    {gone : Location → Bool} {left : Value → Value}
    (hleft : ∀ node ∈ v.childNodes, goneAfter rest gone v [node.1] = false →
      left (node.2.without (Value.goneBelow (goneAfter rest gone v) node.1))
        = node.2.without (goneAfter (.descent :: rest)
            (Value.goneBelow (goneAfter rest gone v) node.1) node.2)) :
    (v.without (goneAfter rest gone v)).withChildren
        ((v.without (goneAfter rest gone v)).children.map left)
      = v.without (goneAfter (.descent :: rest) gone v) := by
  rw [v.without_eq, v.without_eq, Value.withChildren_revise]
  refine Value.revise_congr fun node mem => ?_
  have hgone (location : Location) : goneAfter (.descent :: rest) gone v (node.1 :: location)
      = (goneAfter rest gone v (node.1 :: location)
          || addressed (.descent :: rest) node.2 location) := by
    rw [goneAfter, addressed_descent_childNode differ mem, ← Bool.or_assoc, goneAfter]
  have hbelow : Value.goneBelow (goneAfter (.descent :: rest) gone v) node.1
      = goneAfter (.descent :: rest) (Value.goneBelow (goneAfter rest gone v) node.1) node.2 :=
    funext hgone
  -- rest) node.2 [] :: A child goes when its parent is asked, and not when it is asked itself.
  have hnil : addressed (.descent :: rest) node.2 [] = false := by
    rw [addressed, addressedBelow, below.addressed_nil]
  rw [hgone, hnil, Bool.or_false, hbelow]
  cases h : goneAfter rest gone v [node.1] with
  | true => rfl
  | false => simp [hleft node mem h]

end

/-- What a steady removal takes out of a value, and what a descent takes out of one that has lost
some parts before. -/
theorem Removal.left_eq_here_and_below {segments : List Segment} {budget n : Nat} {v left : Value}
    (h : Removal segments budget v left n) (hv : v.WellFormed) :
    (Steady segments v → left = v.without (addressed segments v)) ∧
      ∀ {rest gone whole}, segments = .descent :: rest → whole.WellFormed →
        v = whole.without gone → SteadyBelow rest (Steady rest) gone whole →
          left = whole.without (goneAfter segments gone whole) := by
  induction h with
  | last hsegment =>
    refine ⟨fun _ => revise_eq_without hsegment hv.stepsDiffer, ?_⟩
    rintro rest gone whole heq
    cases heq
    exact absurd rfl hsegment
  | @pass segment rest budget v left count hsegment below _ ih =>
    refine ⟨fun steady => ?_, ?_⟩
    · rw [steady_cons hsegment] at steady
      refine revise_eq_without_of_choose hsegment below hv.stepsDiffer fun node mem => ?_
      exact (ih node mem (hv.of_mem_children (mem_children_of_mem_choose mem))).1 (steady node mem)
    · rintro rest gone whole heq
      cases heq
      exact absurd rfl hsegment
  | @descend rest budget v here n left count below hhere _ ihhere ihbelow =>
    -- The second part is the induction; the first is the case in which nothing is gone yet.
    have hsecond : ∀ {gone : Location → Bool} {whole : Value}, whole.WellFormed →
        v = whole.without gone → SteadyBelow rest (Steady rest) gone whole →
          here.withChildren (here.children.map left)
            = whole.without (goneAfter (.descent :: rest) gone whole) := by
      rintro gone whole hwhole rfl ⟨inner, same, hbelow⟩
      obtain rfl : here = whole.without (goneAfter rest gone whole) :=
        ((ihhere hv).1 inner).trans same
      refine withChildren_eq_without hwhole.stepsDiffer below fun node mem hgone => ?_
      have hnode := hwhole.of_mem_children (Value.mem_children_of_mem_childNodes mem)
      have hleft := Value.mem_children_of_mem_childNodes (Value.mem_childNodes_without mem hgone)
      exact (ihbelow _ hleft (hnode.without _)).2 rfl hnode rfl (hbelow node mem hgone)
    refine ⟨fun steady => ?_, ?_⟩
    · have hself : v = v.without fun _ => false := (Value.without_eq_self fun _ _ => rfl).symm
      exact (hsecond hv hself steady).trans rfl
    · rintro _ gone whole ⟨⟩ hwhole hv steady
      exact hsecond hwhole hv steady

/-- A removal that is steady takes out just the locations that its segments lead to. -/
theorem Removal.left_eq_without {segments : List Segment} {budget n : Nat} {v left : Value}
    (h : Removal segments budget v left n) (hv : v.WellFormed) (steady : Steady segments v) :
    left = v.without (addressed segments v) :=
  (h.left_eq_here_and_below hv).1 steady

end JsonDoc

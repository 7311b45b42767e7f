/-
Walks come to their end. A step up or back leads to a smaller number and a step down to a greater
one, so no walk through a linked model is longer than its table, and bounding it by the size of the
table cuts nothing off: each walk goes on as long as there is a step to take.
-/
import RestSpec.Proofs.DataModel.Twins

namespace RestSpec.DataModel

variable {model : DataModel}

/-! ## Up -/

/-- The way up from a node has fewer steps than the node's number says, so more steps give the same
`ancestorsWithin`. -/
theorem ancestorsWithin_eq (hup : ∀ id p, (model.node id).parent = some p → p < id) :
    ∀ (steps steps' : Nat) (id : NodeId), id ≤ steps → id ≤ steps' →
      model.ancestorsWithin steps id = model.ancestorsWithin steps' id := by
  have hpass : ∀ {id p : NodeId} {steps : Nat}, (model.node id).parent = some p →
      id ≤ steps + 1 → p ≤ steps := fun hp hle =>
    Nat.le_of_lt_succ (Nat.lt_of_lt_of_le (hup _ _ hp) hle)
  have hroot : ∀ (steps : Nat), model.ancestorsWithin steps 0 = [] := by
    intro steps
    cases steps with
    | zero => rfl
    | succ steps =>
      unfold ancestorsWithin
      split
      · rfl
      · exact absurd (hup 0 _ ‹_›) (Nat.not_lt_zero _)
  intro steps
  induction steps with
  | zero =>
    intro steps' id hle _
    obtain rfl := Nat.le_zero.1 hle
    rw [hroot, hroot]
  | succ steps ih =>
    intro steps' id hle hle'
    cases steps' with
    | zero =>
      obtain rfl := Nat.le_zero.1 hle'
      rw [hroot, hroot]
    | succ steps' =>
      unfold ancestorsWithin
      split
      · rfl
      · rename_i p hp
        rw [ih steps' p (hpass hp hle) (hpass hp hle')]

theorem Linked.ancestors_eq (hm : model.Linked) (id : NodeId) :
    model.ancestors id =
      match (model.node id).parent with
      | none => []
      | some p => p :: model.ancestors p := by
  have hdown : ∀ p, (model.node id).parent = some p → id < model.size ∧ p < id := fun p hp =>
    ⟨lt_size_of_parent hp, hm.up id p hp⟩
  unfold ancestors
  generalize hsize : model.size = size at hdown
  cases size with
  | zero =>
    cases hp : (model.node id).parent with
    | none => rfl
    | some p => exact absurd (hdown p hp).1 (Nat.not_lt_zero id)
  | succ size =>
    rw [ancestorsWithin]
    cases hp : (model.node id).parent with
    | none => rfl
    | some p =>
      obtain ⟨hlt, hup⟩ := hdown p hp
      have hle : p ≤ size := Nat.le_of_lt (Nat.lt_of_lt_of_le hup (Nat.le_of_lt_succ hlt))
      exact congrArg (p :: ·) (ancestorsWithin_eq hm.up size (size + 1) p hle
        (Nat.le_succ_of_le hle))

/-! ## Down -/

theorem shownAmong_eq_flatMap : ∀ ts : List Tree,
    model.shownAmong ts = ts.flatMap model.shown
  | [] => rfl
  | t :: ts => by rw [shownAmong, List.flatMap_cons, shownAmong_eq_flatMap ts]

/-- The `dataChildren` of a node are its children, but for a choice or a case the `dataChildren` of
that. -/
theorem Linked.dataChildren_eq (hm : model.Linked) (id : NodeId) :
    model.dataChildren id = (model.node id).children.flatMap fun c =>
      if (model.node c).kind.isTransparent then model.dataChildren c else [c] := by
  unfold dataChildren
  rw [shownAmong_eq_flatMap, hm.tree_children_eq, List.flatMap_map]
  refine List.flatMap_congr fun c _ => ?_
  rw [hm.tree_eq c, shown]
  rfl

theorem Linked.dataChildNamed?_eq (hm : model.Linked) (id : NodeId) (name : String) :
    model.dataChildNamed? id name = (model.node id).children.findSome? fun c =>
      if (model.node c).kind.isTransparent then model.dataChildNamed? c name
      else if (model.node c).name = name then some c else none := by
  unfold dataChildNamed?
  rw [hm.dataChildren_eq, List.find?_flatMap]
  congr 1
  funext c
  split
  · rfl
  · by_cases hname : (model.node c).name = name <;> simp [hname]

/-! ## Back -/

theorem Linked.origin_eq (hm : model.Linked) (id : NodeId) :
    model.origin id =
      match (model.node id).copiedFrom with
      | none => id
      | some source => model.origin source := by
  cases hs : (model.node id).copiedFrom with
  | none => exact chase_of_end (fun _ _ h => lt_size_of_copies h) hm.copies_founded hs
  | some source => exact hm.origin_of_copies hs

/-! ## All walks -/

/-- Steps go one way, and walks go on as long as there is a step to take: by `parent` to ancestors,
by `children` through choices and cases, and by `copiedFrom` to what a copy comes from. -/
structure Walkable (model : DataModel) : Prop where
  up : ∀ id p, (model.node id).parent = some p → p < id
  down : ∀ id, ∀ c ∈ (model.node id).children, id < c ∧ c < model.size
  back : ∀ id source, (model.node id).copiedFrom = some source → source < id
  ancestors : ∀ id, model.ancestors id =
    match (model.node id).parent with
    | none => []
    | some p => p :: model.ancestors p
  dataChildNamed? : ∀ id name, model.dataChildNamed? id name =
    (model.node id).children.findSome? fun c =>
      if (model.node c).kind.isTransparent then model.dataChildNamed? c name
      else if (model.node c).name = name then some c else none
  origin : ∀ id, model.origin id =
    match (model.node id).copiedFrom with
    | none => id
    | some source => model.origin source

theorem Linked.walkable (hm : model.Linked) : model.Walkable :=
  ⟨hm.up, hm.children, fun id source h => (hm.copied id source h).1, hm.ancestors_eq,
    hm.dataChildNamed?_eq, hm.origin_eq⟩

end RestSpec.DataModel

/-
The attributes of an object: a property for each data child of a node, and which of them are
required. Choices and cases are looked through and leave a mark on the property; a property that
an augment added carries the augmenting module in its name; what is no configuration is read-only.
-/
import RestSpec.LeafType.Convert

namespace RestSpec

open Document

namespace DataModel

/-! ## Members -/

/-- A node that becomes a property, with the choice and the case it stands in. -/
structure Member where
  id : NodeId
  choice : Option String := none

mutual

/-- The members that a node gives: itself, in the place of a choice what `membersOfCases` has of it,
and in the place of a case what lies in it. -/
def membersOf (model : DataModel) (choice : Option String) : Tree → List Member
  | .node id children =>
    match (model.node id).kind with
    | .choice => membersOfCases model (model.node id).name children
    | .case => membersOfAll model choice children
    | .leaf _ | .leafList _ | .container _ | .list _ => [⟨id, choice⟩]
    | _ => []

/-- What `membersOf` gives for each of some trees in the same case, one after the other. -/
def membersOfAll (model : DataModel) (choice : Option String) : List Tree → List Member
  | [] => []
  | t :: ts => membersOf model choice t ++ membersOfAll model choice ts

/-- The members of the cases of a choice, or of what stands there without a case, each marked with
both names. -/
def membersOfCases (model : DataModel) (choice : String) : List Tree → List Member
  | [] => []
  | .node id children :: ts =>
    let mark := some (choice ++ "/" ++ (model.node id).name)
    (match (model.node id).kind with
      | .case => membersOfAll model mark children
      | _ => membersOf model mark (.node id children)) ++
    membersOfCases model choice ts

end

/-- The members of a node, from those of its children that are to be `included`. -/
def members (model : DataModel) (id : NodeId) (included : NodeId → Bool) : List Member :=
  model.membersOfAll none ((model.tree id).children.filter fun t => included t.id)

/-- The name of a property: that of its node, with the module of `augmentedBy` and a colon before it
if an augment added the node. -/
def Node.propertyName (n : Node) : String :=
  match n.augmentedBy with
  | some m => m ++ ":" ++ n.name
  | none => n.name

end DataModel

open DataModel

/-- Records the choice and the case that a property stands in. -/
def choiceExtension : String := "x-choice"

/-- Records the module whose augment added a property. -/
def augmentExtension : String := "x-augmentation"

/-! ## Attributes -/

/-- Properties of an object in the order of their names, and the names of the required ones. -/
structure Attributes where
  properties : List (String × Schema) := []
  required : List String := []

namespace Attributes

/-- No property was collected; names that are required always name one. -/
def isEmpty (a : Attributes) : Bool := a.properties.isEmpty

/-- The object with the collected properties and `required` names, and the description of the node
that it is made for. -/
def object (a : Attributes) (description : Option String) : Schema :=
  { Schema.object a.properties with required := a.required, description := description }

/-- What the place of a member adds to its schema: `readOnly`, unless it is a reference, and the
extensions for choices and augments. -/
def placedSchema (n : Node) (choice : Option String) (s : Schema) : Schema :=
  let s := if !n.config && !s.isReference then { s with readOnly := some true } else s
  let s := match choice with
    | some mark => s.withExtension choiceExtension (.str mark)
    | none => s
  match n.augmentedBy with
  | some m => s.withExtension augmentExtension (.str m)
  | none => s

/-- Keys are required unless an augment added them, and `mandatory` leaves outside of choices. -/
def isRequired (keys : List String) (n : Node) (choice : Option String) : Bool :=
  (keys.contains n.name && n.augmentedBy.isNone) ||
    ((n.kind.leafInfo?.map (·.mandatory)).getD false && choice.isNone)

/-- Adds the property that stands for a node, placed as `placedSchema` says, and its name to the
required ones if it `isRequired`. -/
def add (a : Attributes) (keys : List String) (n : Node) (choice : Option String) (s : Schema) :
    Attributes :=
  { properties := Entries.insert n.propertyName (placedSchema n choice s) a.properties
    required := if isRequired keys n choice then a.required ++ [n.propertyName] else a.required }

end Attributes

/-! ## Collecting -/

/-- How the schema of a container or of the entries of a list is obtained. -/
abbrev Nested (σ : Type) := σ → NodeId → Except CompileError (σ × Schema)

/-- The schema of a member before `placedSchema`: that of a leaf by `leafProperty`, else what
`nested` makes. -/
def memberSchema {σ : Type} (model : DataModel) (nested : Nested σ) (state : σ) (id : NodeId) :
    Except CompileError (σ × Schema) :=
  match (model.node id).kind with
  | .container _ => nested state id
  | .list _ => do
    let (state, s) ← nested state id
    return (state, Schema.arrayOf s)
  | _ => .ok (state, model.leafProperty id)

/-- Adds members one after the other with their `memberSchema`, and those that `isRequired` to the
required names. -/
def collectMembers {σ : Type} (model : DataModel) (nested : Nested σ) (keys : List String) :
    List Member → σ → Attributes → Except CompileError (σ × Attributes)
  | [], state, a => .ok (state, a)
  | m :: rest, state, a => do
    let (state, s) ← memberSchema model nested state m.id
    collectMembers model nested keys rest state (a.add keys (model.node m.id) m.choice s)

/-- The attributes that the `included` children of a node give it, by `collectMembers` of its
`members`. -/
def collectAttributes {σ : Type} (model : DataModel) (nested : Nested σ) (id : NodeId)
    (included : NodeId → Bool) (state : σ) : Except CompileError (σ × Attributes) :=
  collectMembers model nested (model.node id).kind.keys (model.members id included) state {}

end RestSpec

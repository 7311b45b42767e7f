/-
What linking keeps true of a draft. A grouping that is done is never touched again, and only what
is done is copied. So a copy mirrors what it copies, the children of a node are made up of what it
declares and one block for each grouping that it uses, and no way down, over to a grouping or back
to what was copied goes round in a circle. A draft grows from another if nodes are added and
nothing but the opened nodes changes, and those only by further children and uses.
-/
import Mathlib.Tactic
import Mathlib.Logic.Relation
import RestSpec.DataModel.Link

namespace RestSpec.DataModel

open Relation (TransGen ReflTransGen)

/-! ## Nodes of a model -/

/-- Augments, which stand in the table of nodes but have no parent and are no child. -/
def Kind.isAugment : Kind → Bool
  | augment _ => true
  | _ => false

/-- Which kinds of nodes may stand below a node of a kind, whatever brings them there. -/
def Kind.takes : Kind → Kind → Bool
  | rpc, input | rpc, output => true
  | rpc, _ => false
  | _, container _ | _, list _ | _, leaf _ | _, leafList _ | _, choice | _, case => true
  | _, _ => false

variable (model : DataModel)

/-- The names of the modules, in their order. -/
def moduleNames : List String := model.modules.map (·.name)

/-- The roots that modules list, of data and of remote calls: what the path of `resolveTarget` may
begin with. -/
def roots : List NodeId := model.modules.flatMap fun m => m.data ++ m.rpcs

/-- One node leads to another: down to `children`, over to a grouping that it `uses`, or back to
what it copies. -/
def Edge (a b : NodeId) : Prop :=
  b ∈ (model.node a).children ∨ b ∈ (model.node a).uses ∨ (model.node a).copiedFrom = some b

/-- The first node is a copy of the second one, which it still equals. -/
def Copies (a b : NodeId) : Prop := (model.node a).copiedFrom = some b

/-- The root of a grouping, or a node below it. -/
inductive Grouped : NodeId → Prop
  | root {id : NodeId} : (model.node id).kind = .grouping → Grouped id
  | child {id p : NodeId} : (model.node id).parent = some p → Grouped p → Grouped id

/-- A child that `Copies` a child, and was added by the same module if by any. -/
structure CopiesChild (c t : NodeId) : Prop where
  copied : model.Copies c t
  augmented : (model.node c).augmentedBy = (model.node t).augmentedBy

/-- A copy that says the same as what it copies, with children that copy the children of that. -/
structure Mirrors (id source : NodeId) : Prop where
  kind : (model.node id).kind = (model.node source).kind
  name : (model.node id).name = (model.node source).name
  configStatement : (model.node id).configStatement = (model.node source).configStatement
  description : (model.node id).description = (model.node source).description
  uses : (model.node id).uses = (model.node source).uses
  children : List.Forall₂ model.CopiesChild (model.node id).children (model.node source).children

/-- A child of a node that stands there for a child of a grouping that the node `uses`; it may have
diverged. -/
structure StandsFor (id grouping c t : NodeId) : Prop where
  introduced : (model.node c).introducedBy = some id
  via : (model.node c).viaGrouping = some grouping
  copied : (model.node c).copiedFrom = none ∨
    TransGen model.Copies c t ∧ (model.node c).augmentedBy = (model.node t).augmentedBy

/-- Children of a node that uses groupings: those that it declares, a block for each grouping, and
those that were added to it. Nothing is added to a node of a grouping or changed there. -/
structure Made (id : NodeId) (uses declared : List NodeId) (blocks : List (List NodeId))
    (added : List NodeId) : Prop where
  declares : ∀ c ∈ declared, (model.node c).introducedBy = none
  stands : List.Forall₂ (fun g block =>
    List.Forall₂ (model.StandsFor id g) block (model.node g).children) uses blocks
  adds : ∀ c ∈ added, (model.node c).introducedBy ≠ some id
  whole : model.Grouped id → added = [] ∧
    ∀ c ∈ blocks.flatten, (model.node c).copiedFrom ≠ none

/-- The parts that the `children` of a node fall into: those it declares, a block for each of its
`uses`, and those that augments added. -/
structure Parts (id : NodeId) (declared : List NodeId) (blocks : List (List NodeId))
    (added : List NodeId) : Prop where
  children : (model.node id).children = declared ++ blocks.flatten ++ added
  made : model.Made id (model.node id).uses declared blocks added

variable {model}

theorem node_of_size_le {id : NodeId} (h : model.size ≤ id) : model.node id = Node.blank := by
  unfold node
  rw [Array.getD_eq_getD_getElem?, Array.getElem?_eq_none h]
  rfl

theorem lt_size_of_parent {id p : NodeId} (h : (model.node id).parent = some p) :
    id < model.size := by
  by_contra hlt
  rw [node_of_size_le (Nat.le_of_not_lt hlt)] at h
  cases h

theorem lt_size_of_copies {a b : NodeId} (h : model.Copies a b) : a < model.size := by
  by_contra hlt
  unfold Copies at h
  rw [node_of_size_le (Nat.le_of_not_lt hlt)] at h
  cases h

theorem lt_size_of_edge {a b : NodeId} (h : model.Edge a b) : a < model.size := by
  by_contra hlt
  unfold Edge at h
  rw [node_of_size_le (Nat.le_of_not_lt hlt)] at h
  rcases h with h | h | h <;> cases h

namespace Draft

/-! ## Steps -/

/-- The node that `add` puts into the table. -/
def completed (d : Draft) (n : Node) : Node :=
  { n with
    id := d.model.size
    config := ((n.parent.map fun p => (d.node p).config).getD true) && n.configStatement.getD true
    revision := (d.model.module? n.moduleName).bind (·.revision) }

theorem size_add (d : Draft) (n : Node) : (d.add n).1.model.size = d.model.size + 1 :=
  Array.size_push _

theorem node_add (d : Draft) (n : Node) (id : NodeId) :
    (d.add n).1.node id = if id = d.model.size then d.completed n else d.node id := by
  show (d.model.nodes.push (d.completed n)).getD id Node.blank = _
  rw [Array.getD_eq_getD_getElem?, Array.getElem?_push]
  show _ = if id = d.model.nodes.size then _ else _
  split
  · rfl
  · exact (Array.getD_eq_getD_getElem?).symm

theorem node_add_self (d : Draft) (n : Node) : (d.add n).1.node d.model.size = d.completed n := by
  rw [node_add, if_pos rfl]

theorem node_add_of_lt (d : Draft) (n : Node) {id : NodeId} (h : id < d.model.size) :
    (d.add n).1.node id = d.node id := by
  rw [node_add, if_neg (Nat.ne_of_lt h)]

theorem size_update (d : Draft) (id : NodeId) (f : Node → Node) :
    (d.update id f).model.size = d.model.size :=
  Array.size_modify

theorem node_update (d : Draft) {id : NodeId} (h : id < d.model.size) (f : Node → Node)
    (x : NodeId) : (d.update id f).node x = if x = id then f (d.node id) else d.node x := by
  show (d.model.nodes.modify id f).getD x Node.blank = _
  rw [Array.getD_eq_getD_getElem?, Array.getElem?_modify]
  by_cases hx : x = id
  · subst hx
    have hsome : d.model.nodes[x]? = some (d.node x) := by
      rw [Array.getElem?_eq_getElem h]
      congr 1
      exact (Array.getD_eq_getD_getElem?.trans (by rw [Array.getElem?_eq_getElem h]; rfl)).symm
    rw [if_pos rfl, if_pos rfl, hsome]
    rfl
  · rw [if_neg hx, if_neg (Ne.symm hx)]
    exact (Array.getD_eq_getD_getElem?).symm

theorem node_update_self (d : Draft) {id : NodeId} (h : id < d.model.size) (f : Node → Node) :
    (d.update id f).node id = f (d.node id) := by
  rw [node_update d h, if_pos rfl]

theorem node_update_of_ne (d : Draft) {id : NodeId} (h : id < d.model.size) (f : Node → Node)
    {x : NodeId} (hx : x ≠ id) : (d.update id f).node x = d.node x := by
  rw [node_update d h, if_neg hx]

/-! ## Done groupings -/

/-- A node of a grouping that is among the `built` ones: its root, or a node below it. -/
inductive Done (d : Draft) : NodeId → Prop
  | root {name : GroupingName} {g : NodeId} : (name, g) ∈ d.built → Done d g
  | child {id p : NodeId} : (d.node id).parent = some p → Done d p → Done d id

/-- What holds of every node that is not in the middle of a change, `Mirrors` apart. -/
structure Regular (d : Draft) (id : NodeId) : Prop where
  home : (d.node id).moduleName ∈ d.model.moduleNames
  parent : ∀ p, (d.node id).parent = some p → (d.node id).kind.isAugment = false
  children : ∀ c ∈ (d.node id).children, id < c ∧ c < d.model.size
  below : (d.node id).kind.isAugment = false → ∀ c ∈ (d.node id).children,
    (d.node c).parent = some id ∧ (d.node id).kind.takes (d.node c).kind = true
  uses : ∀ g ∈ (d.node id).uses, ∃ name, (name, g) ∈ d.built
  copied : ∀ s, d.model.Copies id s → s < id ∧ d.Done s
  parts : (d.node id).kind.isAugment = false →
    ∃ declared blocks added, d.model.Parts id declared blocks added

/-- A `Regular` node that `Mirrors` what it copies. -/
structure Settled (d : Draft) (x : NodeId) : Prop where
  regular : d.Regular x
  mirrors : ∀ s, d.model.Copies x s → d.model.Mirrors x s

/-- What copying relies on: parents have smaller numbers, and built groupings are whole. -/
structure Frozen (d : Draft) : Prop where
  up : ∀ id p, (d.node id).parent = some p → p < id
  root : ∀ name g, (name, g) ∈ d.built →
    g < d.model.size ∧ (d.node g).kind = .grouping ∧ (d.node g).parent = none
  settled : ∀ id, d.Done id → d.Settled id
  founded : ∀ id, d.Done id → Acc (fun b a => d.model.Edge a b) id

/-- A draft between two steps. Copies that are `changing` need not mirror what they copied. -/
structure Coherent (d : Draft) (changing : NodeId → Prop) : Prop where
  frozen : d.Frozen
  undone : ∀ id, changing id → id < d.model.size ∧ ¬ d.Done id
  regular : ∀ id < d.model.size, d.Regular id
  mirrors : ∀ id s, ¬ changing id → d.model.Copies id s → d.model.Mirrors id s

variable {d : Draft}

theorem Frozen.lt_size (h : d.Frozen) {id : NodeId} (hd : d.Done id) : id < d.model.size := by
  cases hd with
  | root hb => exact (h.root _ _ hb).1
  | child hp _ => exact lt_size_of_parent hp

theorem Frozen.grouped (h : d.Frozen) {id : NodeId} (hd : d.Done id) : d.model.Grouped id := by
  induction hd with
  | root hb => exact .root (h.root _ _ hb).2.1
  | child hp _ ih => exact .child hp ih

theorem Frozen.not_augment (h : d.Frozen) {id : NodeId} (hd : d.Done id) :
    (d.node id).kind.isAugment = false := by
  cases hd with
  | root hb => rw [(h.root _ _ hb).2.1]; rfl
  | child hp hd => exact (h.settled _ (.child hp hd)).regular.parent _ hp

theorem Frozen.done_child (h : d.Frozen) {id c : NodeId} (hd : d.Done id)
    (hc : c ∈ (d.node id).children) : d.Done c :=
  .child ((h.settled id hd).regular.below (h.not_augment hd) c hc).1 hd

theorem Frozen.done_use (h : d.Frozen) {id g : NodeId} (hd : d.Done id)
    (hg : g ∈ (d.node id).uses) : d.Done g :=
  let ⟨_, hb⟩ := (h.settled id hd).regular.uses g hg
  .root hb

theorem Frozen.done_copied (h : d.Frozen) {id s : NodeId} (hd : d.Done id)
    (hs : d.model.Copies id s) : d.Done s :=
  ((h.settled id hd).regular.copied s hs).2

end Draft

end RestSpec.DataModel
